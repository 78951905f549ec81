import RToJulia.Proofs.Julia.Written

/-! # Notes left by a writer

A writer only adds record types and packages to its state, each record type when it
is new there, and it never takes a refusal back. `Leaves P U m` says which notes `m`
adds: none beside those of `U`, and all of them when it ends without a refusal. What
this says of the record types alone is `Notes`.
-/

namespace RToJulia.Julia

open Writer

variable {α β : Type}

/-- From `w` to `w'` record types were added, each new and once, and no refusal was lost. -/
structure Work.Grows (w w' : Work) : Prop where
  added : ∃ new, w'.records = w.records ++ new ∧ w'.fresh = w.fresh ++ new ∧ new.Nodup ∧
    ∀ type ∈ new, type ∉ w.records
  clean : w'.unsupported = none → w.unsupported = none

namespace Work.Grows

variable {w w₁ w₂ : Work}

theorem of_eq (hr : w₁.records = w.records) (hf : w₁.fresh = w.fresh)
    (hu : w₁.unsupported = none → w.unsupported = none) : w.Grows w₁ :=
  ⟨⟨[], by simp [hr], by simp [hf], .nil, by simp⟩, hu⟩

theorem refl (w : Work) : w.Grows w :=
  of_eq rfl rfl id

theorem trans (h₁ : w.Grows w₁) (h₂ : w₁.Grows w₂) : w.Grows w₂ := by
  obtain ⟨new₁, hr₁, hf₁, hn₁, hd₁⟩ := h₁.added
  obtain ⟨new₂, hr₂, hf₂, hn₂, hd₂⟩ := h₂.added
  have hnew₂ : ∀ type ∈ new₂, type ∉ w.records ∧ type ∉ new₁ := by
    intro type ht
    have := hd₂ type ht
    rw [hr₁, List.mem_append] at this
    exact ⟨fun h => this (.inl h), fun h => this (.inr h)⟩
  refine ⟨⟨new₁ ++ new₂, by rw [hr₂, hr₁, List.append_assoc], by rw [hf₂, hf₁, List.append_assoc],
    ?_, ?_⟩, fun h => h₁.clean (h₂.clean h)⟩
  · refine List.nodup_append.mpr ⟨hn₁, hn₂, ?_⟩
    rintro type h₁ _ h₂ rfl
    exact (hnew₂ type h₂).2 h₁
  · intro type ht
    rcases List.mem_append.mp ht with ht | ht
    · exact hd₁ type ht
    · exact (hnew₂ type ht).1

end Work.Grows

def Work.Has (w : Work) : Note → Prop
  | .record type => type ∈ w.records
  | .package p => p ∈ w.packages

/-- From `w` to `w'` the state grew, kept its notes and got none beside those of `U`. -/
structure Work.Gains (U : Note → Prop) (w w' : Work) : Prop where
  grows : w.Grows w'
  kept : ∀ k, w.Has k → w'.Has k
  within : ∀ k, w'.Has k → w.Has k ∨ U k

namespace Work.Gains

variable {U V : Note → Prop} {w w₁ w₂ : Work}

theorem refl (w : Work) : w.Gains U w :=
  ⟨.refl w, fun _ => id, fun _ => .inl⟩

theorem mono (h : w.Gains U w₁) (hu : ∀ k, U k → V k) : w.Gains V w₁ :=
  ⟨h.grows, h.kept, fun k hk => (h.within k hk).imp_right (hu k)⟩

theorem trans (h₁ : w.Gains U w₁) (h₂ : w₁.Gains V w₂) : w.Gains (fun k => U k ∨ V k) w₂ := by
  refine ⟨h₁.grows.trans h₂.grows, fun k hk => h₂.kept k (h₁.kept k hk), fun k hk => ?_⟩
  rcases h₂.within k hk with hk | hv
  · exact (h₁.within k hk).imp_right .inl
  · exact .inr (.inr hv)

/-- Adding a note gains it and no other. -/
theorem note (w : Work) (n : Note) : w.Gains (· = n) (w.note n) ∧ (w.note n).Has n := by
  cases n with
  | record type =>
      by_cases h : type ∈ w.records
      · simp only [Work.note, if_pos h]
        exact ⟨.refl w, h⟩
      · simp only [Work.note, if_neg h]
        refine ⟨⟨⟨⟨[type], rfl, rfl, by simp, by simpa using h⟩, id⟩, fun k hk => ?_, fun k hk => ?_⟩,
          List.mem_append_right _ List.mem_cons_self⟩
        · cases k with
          | record t => exact List.mem_append_left _ hk
          | package p => exact hk
        · cases k with
          | record t => exact (List.mem_append.mp hk).imp_right fun ht => by rw [List.mem_singleton.mp ht]
          | package p => exact .inl hk
  | package p =>
      by_cases h : p ∈ w.packages
      · simp only [Work.note, if_pos h]
        exact ⟨.refl w, h⟩
      · simp only [Work.note, if_neg h]
        refine ⟨⟨.of_eq rfl rfl id, fun k hk => ?_, fun k hk => ?_⟩,
          List.mem_append_right _ List.mem_cons_self⟩
        · cases k with
          | record t => exact hk
          | package q => exact List.mem_append_left _ hk
        · cases k with
          | record t => exact .inl hk
          | package q => exact (List.mem_append.mp hk).imp_right fun hq => by rw [List.mem_singleton.mp hq]

end Work.Gains

/-- The state gains notes of `U` only; without a refusal at the end it has all of them, and the
value meets `P`. -/
def Leaves (P : α → Prop) (U : Note → Prop) (m : Writer α) : Prop :=
  ∀ w a w', m w = .ok (a, w') → w.Gains U w' ∧
    (w'.unsupported = none → P a ∧ ∀ k, U k → w'.Has k)

/-- The state grows; without a refusal at the end the value meets `P` and the types of `U`
are in use beside those that were. -/
def Notes (P : α → Prop) (U : Bytes → Prop) (m : Writer α) : Prop :=
  ∀ w a w', m w = .ok (a, w') → w.Grows w' ∧
    (w'.unsupported = none → P a ∧ ∀ type, type ∈ w'.records ↔ type ∈ w.records ∨ U type)

def Idle (m : Writer α) : Prop :=
  ∀ w a w', w.unsupported ≠ none → m w = .ok (a, w') → w' = w

/-- A run of two writers in turn is a run of each. -/
theorem bind_run_cases {m : Writer α} {f : α → Writer β} {w w₂ : Work} {b : β}
    (h : (m >>= f) w = .ok (b, w₂)) : ∃ a w₁, m w = .ok (a, w₁) ∧ f a w₁ = .ok (b, w₂) := by
  cases hm : m w with
  | error reason =>
      rw [bind_run_error hm] at h
      exact nomatch h
  | ok r =>
      rw [bind_run_ok hm] at h
      exact ⟨r.1, r.2, rfl, h⟩

/-! ## Writers that do nothing after a refusal -/

namespace Idle

theorem pure (a : α) : Idle (Pure.pure a : Writer α) := by
  intro w _ _ _ hrun
  cases hrun
  rfl

theorem bind {m : Writer α} {f : α → Writer β} (hm : Idle m) (hf : ∀ a, Idle (f a)) :
    Idle (m >>= f) := by
  intro w b w₂ hw hrun
  obtain ⟨a, w₁, hma, hfb⟩ := bind_run_cases hrun
  obtain rfl := hm w a w₁ hw hma
  exact hf a w₁ b w₂ hw hfb

theorem mapM {ι : Type} {g : ι → Writer α} {items : List ι} (h : ∀ i ∈ items, Idle (g i)) :
    Idle (items.mapM g) := by
  induction items with
  | nil =>
      rw [List.mapM_nil]
      exact pure []
  | cons i items ih =>
      rw [List.mapM_cons]
      have hrest := ih fun j hj => h j (by simp [hj])
      exact bind (h i (by simp)) fun a => bind hrest fun as => pure (a :: as)

theorem useFunction {function : Bytes} (h : Package.ofFunction? function = none) :
    Idle (useFunction function) := by
  intro w _ _ _ hrun
  rw [useFunction_run_none h] at hrun
  cases hrun
  rfl

theorem unlessRefused (m : Writer Bytes) : Idle (unlessRefused m) := by
  intro w a w' hw hrun
  have hsome : w.unsupported.isSome = true := Option.isSome_iff_ne_none.mpr hw
  change (if w.unsupported.isSome then Pure.pure [] else m) w = .ok (a, w') at hrun
  rw [if_pos hsome] at hrun
  cases hrun
  rfl

end Idle

/-! ## Steps -/

namespace Leaves

variable {P : α → Prop} {Q : β → Prop} {U V : Note → Prop} {m : Writer α} {f : α → Writer β}

theorem mono {P' : α → Prop} (h : Leaves P U m) (hp : ∀ a, P a → P' a) (hu : ∀ k, U k ↔ V k) :
    Leaves P' V m := by
  intro w a w' hrun
  obtain ⟨hgains, hclean⟩ := h w a w' hrun
  refine ⟨hgains.mono fun k => (hu k).mp, fun hw' => ?_⟩
  obtain ⟨hpa, hall⟩ := hclean hw'
  exact ⟨hp a hpa, fun k hk => hall k ((hu k).mpr hk)⟩

theorem congr (h : Leaves P U m) (hu : ∀ k, U k ↔ V k) : Leaves P V m :=
  h.mono (fun _ hp => hp) hu

/-- The record types among the notes. -/
theorem notes (h : Leaves P U m) : Notes P (fun type => U (.record type)) m := by
  intro w a w' hrun
  obtain ⟨hgains, hclean⟩ := h w a w' hrun
  refine ⟨hgains.grows, fun hw' => ?_⟩
  obtain ⟨hpa, hall⟩ := hclean hw'
  refine ⟨hpa, fun type => ⟨hgains.within (.record type), ?_⟩⟩
  rintro (hold | hu)
  · exact hgains.kept (.record type) hold
  · exact hall (.record type) hu

/-- What the second writer leaves may rest on what the first one returned, if it is idle after a
refusal: then the first one may have returned anything. -/
theorem bind {T : α → Note → Prop} (hm : Leaves P U m)
    (hf : ∀ a, Leaves (fun b => P a → Q b) (T a) (f a)) (ht : ∀ a, P a → ∀ k, T a k ↔ V k)
    (hidle : ∀ a, Idle (f a)) : Leaves Q (fun k => U k ∨ V k) (m >>= f) := by
  intro w b w₂ hrun
  obtain ⟨a, w₁, hma, hfb⟩ := bind_run_cases hrun
  obtain ⟨hgains, hclean⟩ := hm w a w₁ hma
  by_cases hw₁ : w₁.unsupported = none
  · obtain ⟨hpa, hall⟩ := hclean hw₁
    obtain ⟨hgains', hclean'⟩ := (hf a).congr (ht a hpa) w₁ b w₂ hfb
    refine ⟨hgains.trans hgains', fun hw₂ => ?_⟩
    obtain ⟨hqb, hall'⟩ := hclean' hw₂
    refine ⟨hqb hpa, fun k hk => ?_⟩
    rcases hk with hu | hv
    · exact hgains'.kept k (hall k hu)
    · exact hall' k hv
  · obtain rfl := hidle a w₁ b w₂ hw₁ hfb
    exact ⟨hgains.mono fun _ => .inl, fun h => (hw₁ h).elim⟩

theorem seq (hm : Leaves P U m) (hf : ∀ a, Leaves (fun b => P a → Q b) V (f a)) :
    Leaves Q (fun k => U k ∨ V k) (m >>= f) := by
  intro w b w₂ hrun
  obtain ⟨a, w₁, hma, hfb⟩ := bind_run_cases hrun
  obtain ⟨hgains, hclean⟩ := hm w a w₁ hma
  obtain ⟨hgains', hclean'⟩ := hf a w₁ b w₂ hfb
  refine ⟨hgains.trans hgains', fun hw₂ => ?_⟩
  obtain ⟨hpa, hall⟩ := hclean (hgains'.grows.clean hw₂)
  obtain ⟨hqb, hall'⟩ := hclean' hw₂
  refine ⟨hqb hpa, fun k hk => ?_⟩
  rcases hk with hu | hv
  · exact hgains'.kept k (hall k hu)
  · exact hall' k hv

theorem pure {a : α} (h : P a) : Leaves P (fun _ => False) (Pure.pure a : Writer α) := by
  intro w _ _ hrun
  cases hrun
  exact ⟨.refl w, fun _ => ⟨h, nofun⟩⟩

theorem halt {reason : Halt} : Leaves P U (halt reason : Writer α) :=
  fun _ _ _ hrun => nomatch hrun

theorem margin (o : Options) (level : Nat) :
    Leaves (fun _ => True) (fun _ => False) (margin o level) := by
  unfold Writer.margin
  dsimp only
  split
  · exact halt
  · exact pure trivial

theorem lift (x : Except Halt α) : Leaves (fun _ => True) (fun _ => False) (x : Writer α) := by
  cases x with
  | error reason => exact fun _ _ _ hrun => nomatch hrun
  | ok a => exact pure trivial

theorem useRecord (type : Bytes) :
    Leaves (fun _ => True) (· = .record type) (useRecord type) := by
  intro w _ _ hrun
  cases hrun
  obtain ⟨hgains, hhas⟩ := Work.Gains.note w (.record type)
  exact ⟨hgains, fun _ => ⟨trivial, fun k hk => hk ▸ hhas⟩⟩

theorem useFunction (function : Bytes) :
    Leaves (fun _ => True) (functionNote? function = some ·) (useFunction function) := by
  intro w _ w' hrun
  unfold functionNote?
  cases hp : Package.ofFunction? function with
  | none =>
      rw [useFunction_run_none hp] at hrun
      cases hrun
      exact ⟨.refl w, fun _ => ⟨trivial, nofun⟩⟩
  | some p =>
      have hrun' : w' = w.note (.package p) := by
        rw [useFunction_run_some hp] at hrun
        cases hrun
        rfl
      obtain ⟨hgains, hhas⟩ := Work.Gains.note w (.package p)
      rw [hrun']
      refine ⟨hgains.mono fun k hk => by rw [hk]; rfl, fun _ => ⟨trivial, fun k hk => ?_⟩⟩
      cases hk
      exact hhas

theorem refuse {P : Bytes → Prop} (n : Node) : Leaves P U (refuse n) := by
  intro w _ _ hrun
  cases hrun
  have hrefused : (w.unsupported <|> some n) ≠ none := by
    cases w.unsupported <;> nofun
  exact ⟨⟨.of_eq rfl rfl fun h => (hrefused h).elim, fun k hk => by cases k <;> exact hk,
    fun k hk => .inl (by cases k <;> exact hk)⟩, fun h => (hrefused h).elim⟩

theorem unlessRefused {P : Bytes → Prop} {m : Writer Bytes} (h : Leaves P U m) :
    Leaves P U (unlessRefused m) := by
  intro w a w' hrun
  change (if w.unsupported.isSome then Pure.pure [] else m) w = .ok (a, w') at hrun
  split at hrun
  · cases hrun
    refine ⟨.refl w, fun hw => ?_⟩
    simp_all
  · exact h w a w' hrun

/-- What leaves the notes of each item leaves the notes of all of them. -/
theorem mapM {ι : Type} {g : ι → Writer α} {T : ι → Note → Prop} {items : List ι}
    (h : ∀ i ∈ items, Leaves (fun _ => True) (T i) (g i)) :
    Leaves (fun _ => True) (fun k => ∃ i ∈ items, T i k) (items.mapM g) := by
  induction items with
  | nil =>
      rw [List.mapM_nil]
      exact (pure trivial).congr (by simp)
  | cons i items ih =>
      rw [List.mapM_cons]
      have hrest := ih fun j hj => h j (by simp [hj])
      exact (seq (h i (by simp)) fun a => seq hrest fun as => pure fun _ _ => trivial).congr
        (by simp)

end Leaves

end RToJulia.Julia
