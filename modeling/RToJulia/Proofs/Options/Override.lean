import RToJulia.Options.Override

/-! # Overrides in any order

Overrides are the entries of a map from names to texts, and they are applied in whatever order
the map is gone through. What they give is said by the map alone: the options it names have the
values that are read from their texts, all others are as before, and the whole is allowed. Only
which fault is reported, where there is more than one, depends on the order.
-/

namespace RToJulia.Options

open Text

/-! ## Options by name -/

namespace Name

def text : Name → Bytes
  | indent => "indent"
  | listPositionalKeys => "list-positional-keys"
  | matrixFallback => "matrix-fallback"
  | sequenceLead => "seq-prefix"

def Value : Name → Type
  | indent => Int
  | listPositionalKeys => Bool
  | matrixFallback => Bytes
  | sequenceLead => Bytes

def get (o : Options) : (n : Name) → n.Value
  | indent => o.indentWidth
  | listPositionalKeys => o.listPositionalKeys
  | matrixFallback => o.matrixFallback
  | sequenceLead => o.sequenceLead

def put (o : Options) : (n : Name) → n.Value → Options
  | indent, width => { o with indentWidth := width }
  | listPositionalKeys, keys => { o with listPositionalKeys := keys }
  | matrixFallback, fallback => { o with matrixFallback := fallback }
  | sequenceLead, lead => { o with sequenceLead := lead }

def read (text : Bytes) : (n : Name) → Except OverrideFault n.Value
  | indent => (readInteger text).mapError (.indent text)
  | listPositionalKeys => (readTruth? text).elim (.error (.listPositionalKeys text)) .ok
  | matrixFallback => .ok text
  | sequenceLead => .ok text

theorem ofText?_eq_some_iff {s : Bytes} {n : Name} : ofText? s = some n ↔ s = n.text := by
  constructor
  · intro h
    unfold ofText? at h
    repeat' split at h
    all_goals cases h
    all_goals assumption
  · rintro rfl
    cases n <;> decide

theorem text_injective {n m : Name} (h : n.text = m.text) : n = m :=
  Option.some.inj ((ofText?_eq_some_iff.mpr rfl).symm.trans (ofText?_eq_some_iff.mpr h))

@[simp] theorem get_put_self (o : Options) (n : Name) (v : n.Value) : get (put o n v) n = v := by
  cases n <;> rfl

theorem get_put_of_ne (o : Options) {n m : Name} (h : m ≠ n) (v : n.Value) :
    get (put o n v) m = get o m := by
  cases n <;> cases m <;> first | rfl | exact absurd rfl h

theorem eq_of_get {o r : Options} (h : ∀ n : Name, get o n = get r n) : o = r := by
  have hindent := h indent
  have hkeys := h listPositionalKeys
  have hfallback := h matrixFallback
  have hlead := h sequenceLead
  cases o
  cases r
  simp_all [get]

end Name

/-! ## Setting options -/

section Setting

variable {o r : Options}

/-- Setting an option reads its value and puts it in its place. -/
theorem set_eq (o : Options) (n : Name) (text : Bytes) :
    o.set n text = (n.read text).map (n.put o) := by
  cases n with
  | indent =>
      simp only [set, Name.read]
      cases readInteger text <;> rfl
  | listPositionalKeys =>
      simp only [set, Name.read]
      cases readTruth? text <;> rfl
  | matrixFallback | sequenceLead => rfl

theorem setAll_cons_ok {n : Name} {text : Bytes} {rest : List (Bytes × Bytes)} :
    o.setAll ((n.text, text) :: rest) = .ok r ↔
      ∃ v, n.read text = .ok v ∧ (n.put o v).setAll rest = .ok r := by
  rw [setAll, Name.ofText?_eq_some_iff.mpr rfl]
  dsimp only
  rw [set_eq]
  cases n.read text with
  | error f => simp [Except.map]
  | ok v => simp [Except.map]

/-- What entries of names and texts make of `o`: an option that has an entry has the value read
from its text, and every other one the value it had. -/
structure SetBy (o : Options) (entry : Bytes → Bytes → Prop) (r : Options) : Prop where
  known : ∀ name text, entry name text → ∃ n : Name, name = n.text
  named : ∀ (n : Name) (text : Bytes), entry n.text text → n.read text = .ok (n.get r)
  others : ∀ n : Name, (∀ text, ¬ entry n.text text) → n.get r = n.get o

theorem SetBy.congr {entry entry' : Bytes → Bytes → Prop}
    (h : ∀ name text, entry name text ↔ entry' name text) : SetBy o entry r ↔ SetBy o entry' r := by
  have heq : entry = entry' := funext fun name => funext fun text => propext (h name text)
  rw [heq]

theorem setBy_nil : SetBy o (fun name text => (name, text) ∈ []) r ↔ o = r := by
  constructor
  · intro h
    exact Name.eq_of_get fun n => (h.others n (by simp)).symm
  · rintro rfl
    exact ⟨by simp, by simp, fun _ _ => rfl⟩

/-- The first override is undone by none of the others, since they have other names. -/
theorem setBy_cons {n : Name} {text : Bytes} {rest : List (Bytes × Bytes)}
    (hn : ∀ t, (n.text, t) ∉ rest) :
    SetBy o (fun name t => (name, t) ∈ (n.text, text) :: rest) r ↔
      ∃ v, n.read text = .ok v ∧ SetBy (n.put o v) (fun name t => (name, t) ∈ rest) r := by
  constructor
  · intro h
    refine ⟨n.get r, h.named n text List.mem_cons_self, fun name t ht => ?_, fun m t ht => ?_,
      fun m hm => ?_⟩
    · exact h.known name t (List.mem_cons_of_mem _ ht)
    · exact h.named m t (List.mem_cons_of_mem _ ht)
    · by_cases hmn : m = n
      · rw [hmn, Name.get_put_self]
      · rw [Name.get_put_of_ne o hmn]
        refine h.others m fun t ht => ?_
        rcases List.mem_cons.mp ht with heq | ht
        · exact hmn (Name.text_injective (Prod.mk.inj heq).1)
        · exact hm t ht
  · rintro ⟨v, hv, h⟩
    have hvalue : n.get r = v := by rw [h.others n hn, Name.get_put_self]
    refine ⟨fun name t ht => ?_, fun m t ht => ?_, fun m hm => ?_⟩
    · rcases List.mem_cons.mp ht with heq | ht
      · exact ⟨n, (Prod.mk.inj heq).1⟩
      · exact h.known name t ht
    · rcases List.mem_cons.mp ht with heq | ht
      · obtain ⟨htext, rfl⟩ := Prod.mk.inj heq
        cases Name.text_injective htext
        rw [hv, hvalue]
      · exact h.named m t ht
    · have hmn : m ≠ n := by
        rintro rfl
        exact hm text List.mem_cons_self
      rw [h.others m fun t ht => hm t (List.mem_cons_of_mem _ ht), Name.get_put_of_ne o hmn]

/-- Overrides of different names do what each of them says. -/
theorem setAll_ok_iff {changes : List (Bytes × Bytes)} (h : (changes.map Prod.fst).Nodup) :
    o.setAll changes = .ok r ↔ SetBy o (fun name text => (name, text) ∈ changes) r := by
  induction changes generalizing o with
  | nil => rw [setBy_nil, setAll, Except.ok.injEq]
  | cons change rest ih =>
      obtain ⟨name, text⟩ := change
      rw [List.map_cons, List.nodup_cons] at h
      cases hname : Name.ofText? name with
      | none =>
          -- A name that is unknown is refused, and so it is by `SetBy`.
          have hfail : o.setAll ((name, text) :: rest) = .error (.unknown name) := by
            rw [setAll, hname]
          rw [hfail]
          constructor
          · rintro ⟨⟩
          · intro hset
            obtain ⟨n, hn⟩ := hset.known name text List.mem_cons_self
            rw [Name.ofText?_eq_some_iff.mpr hn] at hname
            cases hname
      | some n =>
          cases Name.ofText?_eq_some_iff.mp hname
          have hfirst : ∀ t, (n.text, t) ∉ rest := fun t ht => h.1 (List.mem_map.mpr ⟨_, ht, rfl⟩)
          rw [setAll_cons_ok, setBy_cons hfirst]
          exact exists_congr fun v => and_congr_right fun _ => ih h.2

end Setting

/-! ## Maps -/

/-- The list goes through the entries of a map, each of them once. -/
structure Iterates (m : Bytes → Option Bytes) (changes : List (Bytes × Bytes)) : Prop where
  once : (changes.map Prod.fst).Nodup
  entries : ∀ name text, (name, text) ∈ changes ↔ m name = some text

theorem Iterates.perm {m : Bytes → Option Bytes} {changes others : List (Bytes × Bytes)}
    (h : Iterates m changes) (hp : changes.Perm others) : Iterates m others where
  once := (hp.map Prod.fst).nodup_iff.mp h.once
  entries name text := by rw [← hp.mem_iff, h.entries]

section Maps

variable {o r : Options} {m : Bytes → Option Bytes} {changes others : List (Bytes × Bytes)}

theorem override_eq_ok :
    o.override changes = .ok r ↔ o.setAll changes = .ok r ∧ r.check = .ok r := by
  unfold override
  cases o.setAll changes with
  | error f => simp [bind, Except.bind]
  | ok o' =>
      by_cases hfaults : o'.faults = []
      · have hcheck : o'.check = .ok o' := if_pos hfaults
        simp only [bind, Except.bind, hcheck, Except.ok.injEq]
        constructor
        · rintro rfl
          exact ⟨rfl, hcheck⟩
        · exact fun h => h.1
      · have hcheck : o'.check = .error o'.faults := if_neg hfaults
        simp only [bind, Except.bind, hcheck, Except.ok.injEq]
        constructor
        · rintro ⟨⟩
        · rintro ⟨rfl, h⟩
          rw [hcheck] at h
          cases h

/-- What overrides give is said by their map. -/
theorem override_ok_iff (h : Iterates m changes) :
    o.override changes = .ok r ↔
      SetBy o (fun name text => m name = some text) r ∧ r.check = .ok r := by
  rw [override_eq_ok, setAll_ok_iff h.once, SetBy.congr h.entries]

/-- However a map of overrides is gone through, they are refused, or they give the same options.
They give the options that the map says, if these are allowed, and are refused otherwise. -/
theorem override_order_free (o : Options) (h : Iterates m changes) (h' : Iterates m others) :
    ((∃ f f', o.override changes = .error f ∧ o.override others = .error f') ∨
      ∃ r, o.override changes = .ok r ∧ o.override others = .ok r) ∧
    ∀ r, o.override changes = .ok r ↔
      SetBy o (fun name text => m name = some text) r ∧ r.check = .ok r := by
  refine ⟨?_, fun r => override_ok_iff h⟩
  cases hresult : o.override changes with
  | ok r =>
      refine .inr ⟨r, rfl, ?_⟩
      rwa [override_ok_iff h', ← override_ok_iff h]
  | error f =>
      cases hother : o.override others with
      | error f' => exact .inl ⟨f, f', rfl, rfl⟩
      | ok r =>
          rw [override_ok_iff h', ← override_ok_iff h, hresult] at hother
          cases hother

/-- Two overrides over options of which one comes from elsewhere. -/
theorem override_order_free_two :
    let o : Options := { sequenceLead := "from_file" }
    let m : Bytes → Option Bytes := fun name =>
      if name = "indent" then some "2" else if name = "matrix-fallback" then some "passthrough"
      else none
    let r : Options :=
      { indentWidth := 2, matrixFallback := "passthrough", sequenceLead := "from_file" }
    Iterates m [("indent", "2"), ("matrix-fallback", "passthrough")] ∧
      Iterates m [("matrix-fallback", "passthrough"), ("indent", "2")] ∧
      o.override [("matrix-fallback", "passthrough"), ("indent", "2")] = .ok r ∧
      SetBy o (fun name text => m name = some text) r ∧ r.check = .ok r := by
  intro o m r
  have hlist : Iterates m [("indent", "2"), ("matrix-fallback", "passthrough")] := by
    have hne : utf8 "indent" ≠ utf8 "matrix-fallback" := by decide
    refine ⟨by decide, fun name text => ?_⟩
    by_cases hindent : name = "indent"
    · simp [m, hindent, hne, eq_comm]
    · by_cases hmatrix : name = "matrix-fallback"
      · simp [m, hmatrix, hne, hne.symm, eq_comm]
      · simp [m, hindent, hmatrix]
  have hswap := hlist.perm (.swap _ _ [])
  have hok : o.override [("indent", "2"), ("matrix-fallback", "passthrough")] = .ok r := rfl
  obtain ⟨horder, hiff⟩ := override_order_free o hlist hswap
  refine ⟨hlist, hswap, ?_, (hiff r).mp hok⟩
  rcases horder with ⟨f, f', hf, -⟩ | ⟨r', hr', hother⟩
  · cases hok.symm.trans hf
  · cases hok.symm.trans hr'
    exact hother

-- Where two overrides are at fault, the order decides which of them is reported.
example :
    ({} : Options).override [("width", "2"), ("indent", "wide")] = .error (.unknown "width") ∧
      ({} : Options).override [("indent", "wide"), ("width", "2")] =
        .error (.indent "wide" .malformed) :=
  ⟨rfl, rfl⟩

end Maps

end RToJulia.Options
