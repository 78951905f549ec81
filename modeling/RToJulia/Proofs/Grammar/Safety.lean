import RToJulia.Proofs.Grammar.Calculus

/-! # Safe reading

A list is readable when it holds an `eof` token and its literal tokens carry
values of their kinds. On a readable list every rule keeps to the tokens before
the first `eof`, takes the tokens it promises to take, and halts only when its
depth is short of the length: five levels a token and a few more. One level of
rules is checked from the level below, so the bound holds of every depth.
-/

namespace RToJulia.Grammar

open RToJulia.Grammar.Parser

variable {α β : Type}

/-- A list that ends with `eof` at the latest, with typed literals. -/
structure Readable (ts : List Token) : Prop where
  ends : ∃ t ∈ ts, t.kind = .eof
  typed : ∀ t ∈ ts, isTyped t = true

/-- `rest` is left of `ts` after tokens that are no `eof`. -/
def Reaches (ts rest : List Token) : Prop :=
  ∃ front, ts = front ++ rest ∧ ∀ t ∈ front, t.kind ≠ .eof

theorem Reaches.refl (ts : List Token) : Reaches ts ts :=
  ⟨[], rfl, by simp⟩

theorem Reaches.trans {ts mid rest : List Token} (h₁ : Reaches ts mid) (h₂ : Reaches mid rest) :
    Reaches ts rest := by
  obtain ⟨front₁, rfl, hf₁⟩ := h₁
  obtain ⟨front₂, rfl, hf₂⟩ := h₂
  refine ⟨front₁ ++ front₂, by rw [List.append_assoc], ?_⟩
  intro t ht
  rcases List.mem_append.mp ht with ht | ht
  · exact hf₁ t ht
  · exact hf₂ t ht

theorem Reaches.tail {t : Token} (h : t.kind ≠ .eof) (ts : List Token) : Reaches (t :: ts) ts :=
  ⟨[t], rfl, by simpa using h⟩

theorem Reaches.dropWhile {kind : Kind} (h : kind ≠ .eof) (ts : List Token) :
    Reaches ts (ts.dropWhile (·.kind = kind)) := by
  refine ⟨ts.takeWhile (·.kind = kind), (List.takeWhile_append_dropWhile ..).symm, ?_⟩
  intro t ht heof
  have hk := List.all_eq_true.mp List.all_takeWhile t ht
  exact h ((of_decide_eq_true hk).symm.trans heof)

theorem Reaches.ends {ts rest : List Token} (h : Reaches ts rest)
    (he : ∃ t ∈ ts, t.kind = .eof) : ∃ t ∈ rest, t.kind = .eof := by
  obtain ⟨front, rfl, hf⟩ := h
  obtain ⟨t, ht, hk⟩ := he
  rcases List.mem_append.mp ht with ht | ht
  · exact (hf t ht hk).elim
  · exact ⟨t, ht, hk⟩

theorem Reaches.length_le {ts rest : List Token} (h : Reaches ts rest) :
    rest.length ≤ ts.length := by
  obtain ⟨front, rfl, _⟩ := h
  simp

namespace Readable

variable {ts rest : List Token}

theorem reach (h : Readable ts) (hr : Reaches ts rest) : Readable rest := by
  refine ⟨hr.ends h.ends, ?_⟩
  obtain ⟨front, rfl, _⟩ := hr
  intro t ht
  exact h.typed t (List.mem_append_right front ht)

theorem cons (h : Readable ts) : ∃ t rest, ts = t :: rest := by
  obtain ⟨t, ht, _⟩ := h.ends
  exact List.exists_cons_of_ne_nil (List.ne_nil_of_mem ht)

theorem tail {t : Token} (h : Readable (t :: ts)) (ht : t.kind ≠ .eof) : Readable ts :=
  h.reach (Reaches.tail ht ts)

end Readable

/-- What is left lies before the first `eof`, at least `taken` tokens are gone, and a halt is
for want of depth and only when `short` holds. -/
def Outcome.Safe (ts : List Token) (taken : Nat) (short : Prop) (o : Outcome α) : Prop :=
  o.Sat (fun _ rest => Reaches ts rest ∧ rest.length + taken ≤ ts.length) (Reaches ts)
    (fun reason => reason = .depth ∧ short)

namespace Outcome.Safe

variable {ts : List Token} {taken taken' : Nat} {short short' : Prop}

theorem weaken {o : Outcome α} (h : o.Safe ts taken short) (ht : taken' ≤ taken)
    (hs : short → short') : o.Safe ts taken' short' :=
  h.mono (fun _ _ hd => ⟨hd.1, by omega⟩) (fun _ hf => hf) (fun _ hh => ⟨hh.1, hs hh.2⟩)

theorem within {o : Outcome α} (h : o.Safe ts taken short) (short' : Prop) (hs : short → short') :
    o.Safe ts taken short' :=
  h.weaken (Nat.le_refl taken) hs

/-- A safe outcome behind tokens already taken. -/
theorem after {mid : List Token} {o : Outcome α} (hr : Reaches ts mid)
    (hl : mid.length + taken' ≤ ts.length) (h : o.Safe mid (taken - taken') short) :
    o.Safe ts taken short :=
  h.mono (fun _ _ hd => ⟨hr.trans hd.1, by omega⟩) (fun _ hf => hr.trans hf) (fun _ hh => hh)

theorem step {t : Token} {o : Outcome α} (ht : t.kind ≠ .eof) (h : o.Safe ts (taken - 1) short) :
    o.Safe (t :: ts) taken short :=
  after (Reaches.tail ht ts) (by simp) h

theorem done (a : α) (ts : List Token) (short : Prop) : (Outcome.done a ts).Safe ts 0 short :=
  ⟨Reaches.refl ts, by simp⟩

theorem fail (e : SyntaxFault) (ts : List Token) (taken : Nat) (short : Prop) :
    (Outcome.fail e ts : Outcome α).Safe ts taken short :=
  Reaches.refl ts

theorem bind {p : Parser α} {f : α → Parser β} (h : Readable ts)
    (hp : (p ts).Safe ts taken' short)
    (hf : ∀ a mid, Readable mid → mid.length + taken' ≤ ts.length →
      (f a mid).Safe mid (taken - taken') short) :
    ((p >>= f) ts).Safe ts taken short :=
  Outcome.Sat.bind hp fun a mid hm => after hm.1 hm.2 (hf a mid (h.reach hm.1) hm.2)

end Outcome.Safe

/-! ## Single steps -/

section Steps

variable {ts : List Token} {short : Prop}

theorem expect_safe {kind : Kind} (hk : kind ≠ .eof) (h : Readable ts) :
    (expect kind ts).Safe ts 1 short := by
  obtain ⟨t, ts, rfl⟩ := h.cons
  by_cases ht : t.kind = kind
  · rw [expect_pos ht]
    exact (Outcome.Safe.done t ts short).step (ht ▸ hk)
  · obtain ⟨e, he⟩ := expect_neg ht ts
    rw [he]
    exact Outcome.Safe.fail e (t :: ts) 1 short

theorem skipNewlines_safe (h : Readable ts) : (skipNewlines ts).Safe ts 0 short := by
  have hr : Reaches ts (ts.dropWhile (·.kind = .newline)) := Reaches.dropWhile (by decide) ts
  obtain ⟨t, rest, ht⟩ := (h.reach hr).cons
  rw [ht] at hr
  have hrun : skipNewlines ts = .done () (t :: rest) := by simp only [skipNewlines, ht]
  rw [hrun]
  exact ⟨hr, hr.length_le⟩

def Skim.Safe (skim : Skim) : Prop :=
  ∀ ts, (∃ t ∈ ts, t.kind = .eof) → ∃ rest, skim ts = some rest ∧ Reaches ts rest

theorem Skim.kind_safe {kind : Kind} (hk : kind ≠ .eof) : Skim.Safe (Skim.kind kind) := by
  intro ts h
  cases ts with
  | nil => simp at h
  | cons t ts =>
      by_cases ht : t.kind = kind
      · exact ⟨ts, by simp [Skim.kind, ht], Reaches.tail (ht ▸ hk) ts⟩
      · exact ⟨t :: ts, by simp [Skim.kind, ht], Reaches.refl _⟩

theorem Skim.expr_safe : Skim.Safe Skim.expr := by
  intro ts h
  induction ts with
  | nil => simp at h
  | cons t ts ih =>
      by_cases ht : t.kind = .bang || t.kind = .minus
      · have hne : t.kind ≠ .eof := by
          intro he
          simp [he] at ht
        have hr := Reaches.tail hne ts
        obtain ⟨rest, hs, hrest⟩ := ih (hr.ends h)
        exact ⟨rest, by rw [Skim.expr, if_pos ht, hs], hr.trans hrest⟩
      · exact ⟨t :: ts, by rw [Skim.expr, if_neg ht], Reaches.refl _⟩

theorem Skim.params_safe : Skim.Safe Skim.params := by
  intro ts h
  cases ts with
  | nil => simp at h
  | cons t ts =>
      by_cases ht : t.kind = .ident
      · exact ⟨ts, by simp [Skim.params, ht], Reaches.tail (by simp [ht]) ts⟩
      · exact ⟨t :: ts, by simp [Skim.params, ht], Reaches.refl _⟩

theorem Skim.seq_safe {first second : Skim} (h₁ : Skim.Safe first) (h₂ : Skim.Safe second) :
    Skim.Safe (Skim.seq first second) := by
  intro ts h
  obtain ⟨mid, hm, hr₁⟩ := h₁ ts h
  obtain ⟨rest, hs, hr₂⟩ := h₂ mid (hr₁.ends h)
  exact ⟨rest, by simp [Skim.seq, hm, hs], hr₁.trans hr₂⟩

/-- Items with commas between them are read safely when each of them is. -/
theorem commaList_safe {item : Parser α} {more : Parser (List β)} (value : α → β)
    (h : Readable ts) (hitem : (item ts).Safe ts 1 short)
    (hmore : ∀ rest, Readable rest → rest.length + 2 ≤ ts.length → (more rest).Safe rest 1 short) :
    (commaList item value more ts).Safe ts 1 short := by
  unfold commaList
  refine Outcome.Safe.bind h hitem fun a ts₁ h₁ hl₁ => ?_
  refine Outcome.Safe.bind h₁ (skipNewlines_safe h₁) fun _ ts₂ h₂ hl₂ => ?_
  obtain ⟨t, ts₂, rfl⟩ := h₂.cons
  rw [bind_next]
  split
  · rename_i hk
    have hne : t.kind ≠ .eof := by simp [of_decide_eq_true hk]
    simp only [List.length_cons] at hl₂
    rw [bind_take]
    have h₃ := h₂.tail hne
    refine Outcome.Safe.step hne (Outcome.Safe.bind h₃ (skipNewlines_safe h₃)
      fun _ ts₃ h₄ hl₄ => ?_)
    refine Outcome.Safe.bind h₄ (hmore ts₃ h₄ (by omega)) fun rest ts₄ _ _ => ?_
    exact Outcome.Safe.done _ ts₄ _
  · exact Outcome.Safe.done _ (t :: ts₂) _

theorem orSkim_safe {p : Parser α} {skim : Skim} {taken : Nat} (h : Readable ts)
    (hp : (p ts).Safe ts taken short) (hs : Skim.Safe skim) :
    ((p.orSkim skim) ts).Safe ts taken short := by
  refine orSkim_sat hp fun rest hr => ?_
  obtain ⟨left, hl, hleft⟩ := hs rest (hr.ends h.ends)
  exact ⟨left, hl, hr.trans hleft⟩

end Steps

/-! ## One level of rules -/

structure Rules.Safe (n : Nat) (r : Rules) : Prop where
  statements : ∀ closer ts, Readable ts →
    (r.statements closer ts).Safe ts 0 (n < 5 * ts.length + 4)
  statement : ∀ ts, Readable ts → (r.statement ts).Safe ts 1 (n < 5 * ts.length + 3)
  assignment : ∀ ts, Readable ts → (r.assignment ts).Safe ts 1 (n < 5 * ts.length + 2)
  binary : ∀ least ts, Readable ts → (r.binary least ts).Safe ts 1 (n < 5 * ts.length + 1)
  climb : ∀ least left ts, Readable ts → (r.climb least left ts).Safe ts 0 (n < 5 * ts.length + 1)
  suffixes : ∀ e ts, Readable ts → (r.suffixes e ts).Safe ts 0 (n < 5 * ts.length + 1)
  args : ∀ ts, Readable ts → (r.args ts).Safe ts 1 (n < 5 * ts.length + 2)
  names : ∀ ts, Readable ts → (r.names ts).Safe ts 1 (n < 5 * ts.length + 1)

namespace Rules

variable {n : Nat} {r : Rules} {ts : List Token}

theorem Safe.spent : Rules.spent.Safe 0 := by
  constructor <;> intros <;> exact ⟨rfl, by omega⟩

theorem statementsRule_safe (hr : r.Safe n) (closer : Kind) (h : Readable ts) :
    (r.statementsRule closer ts).Safe ts 0 (n + 1 < 5 * ts.length + 4) := by
  obtain ⟨t, ts, rfl⟩ := h.cons
  unfold statementsRule
  rw [bind_peek]
  split
  · exact Outcome.Safe.done [] _ _
  · rename_i hend
    have hne : t.kind ≠ .eof := by
      intro he
      simp [he] at hend
    split
    · rw [bind_take]
      refine Outcome.Safe.step hne ((hr.statements closer ts (h.tail hne)).within _ fun hs => ?_)
      simp only [List.length_cons]
      omega
    · refine Outcome.Safe.bind h ((hr.statement _ h).within _ (by omega)) fun s mid hm hl => ?_
      refine Outcome.Safe.bind hm ((hr.statements closer mid hm).within _ (by omega))
        fun ss rest _ _ => ?_
      exact Outcome.Safe.done _ rest _

theorem block_safe (hr : r.Safe n) (h : Readable ts) :
    (r.block ts).Safe ts 1 (n < 5 * ts.length + 3) := by
  unfold block
  refine Outcome.Safe.bind h (skipNewlines_safe h) fun _ mid hm hl => ?_
  obtain ⟨t, mid, rfl⟩ := hm.cons
  rw [bind_next]
  split
  · rename_i hk
    have hne : t.kind ≠ .eof := by simp [of_decide_eq_true hk]
    rw [bind_take]
    simp only [List.length_cons] at hl
    have hm' := hm.tail hne
    have hs := (hr.statements .rightBrace mid hm').within (n < 5 * ts.length + 3) (by omega)
    refine Outcome.Safe.step hne (Outcome.Safe.bind hm'
      (orSkim_safe hm' hs (Skim.kind_safe (by decide))) fun ss rest hrest _ => ?_)
    refine Outcome.Safe.bind hrest (expect_safe (by decide) hrest) fun _ left _ _ => ?_
    exact Outcome.Safe.done ss left _
  · refine Outcome.Safe.bind hm ((hr.statement _ hm).within _ (by omega)) fun s rest _ _ => ?_
    exact Outcome.Safe.done [s] rest _

theorem condition_safe (hr : r.Safe n) (h : Readable ts) :
    (r.condition ts).Safe ts 2 (n < 5 * ts.length + 3) := by
  unfold condition
  have hskim := Skim.seq_safe Skim.expr_safe (Skim.kind_safe (by decide : Kind.rightParen ≠ .eof))
  refine Outcome.Safe.bind h (orSkim_safe h (expect_safe (by decide) h) hskim) fun _ mid hm hl => ?_
  have hc := (hr.assignment mid hm).within (n < 5 * ts.length + 3) (by omega)
  refine Outcome.Safe.bind hm (orSkim_safe hm hc (Skim.kind_safe (by decide)))
    fun c rest hrest _ => ?_
  refine Outcome.Safe.bind hrest (expect_safe (by decide) hrest) fun _ left _ _ => ?_
  exact Outcome.Safe.done c left _

/-! The rules of single statements are entered at a token that is no `eof`. -/

section Statements

variable {t : Token}

theorem ifRule_safe (hr : r.Safe n) (hne : t.kind ≠ .eof) (h : Readable (t :: ts)) :
    (r.ifRule (t :: ts)).Safe (t :: ts) 1 (n + 1 < 5 * (t :: ts).length + 3) := by
  unfold ifRule
  rw [bind_take, List.length_cons]
  have ht := h.tail hne
  refine Outcome.Safe.step hne (Outcome.Safe.bind ht ((condition_safe hr ht).within _ (by omega))
    fun c mid hm hl => ?_)
  refine Outcome.Safe.bind hm ((block_safe hr hm).within _ (by omega)) fun yes rest hrest _ => ?_
  rw [bind_ahead]
  split
  · refine Outcome.Safe.bind hrest (skipNewlines_safe hrest) fun _ left hleft _ => ?_
    refine Outcome.Safe.bind hleft (expect_safe (by decide) hleft) fun _ last hlast _ => ?_
    refine Outcome.Safe.bind hlast ((block_safe hr hlast).within _ (by omega)) fun no fin _ _ => ?_
    exact Outcome.Safe.done _ fin _
  · exact Outcome.Safe.done _ rest _

theorem whileRule_safe (hr : r.Safe n) (hne : t.kind ≠ .eof) (h : Readable (t :: ts)) :
    (r.whileRule (t :: ts)).Safe (t :: ts) 1 (n + 1 < 5 * (t :: ts).length + 3) := by
  unfold whileRule
  rw [bind_take, List.length_cons]
  have ht := h.tail hne
  refine Outcome.Safe.step hne (Outcome.Safe.bind ht ((condition_safe hr ht).within _ (by omega))
    fun c mid hm hl => ?_)
  refine Outcome.Safe.bind hm ((block_safe hr hm).within _ (by omega)) fun body rest _ _ => ?_
  exact Outcome.Safe.done _ rest _

theorem forRule_safe (hr : r.Safe n) (hne : t.kind ≠ .eof) (h : Readable (t :: ts)) :
    (r.forRule (t :: ts)).Safe (t :: ts) 1 (n + 1 < 5 * (t :: ts).length + 3) := by
  have hin := Skim.seq_safe Skim.expr_safe (Skim.kind_safe (by decide : Kind.rightParen ≠ .eof))
  have hname := Skim.seq_safe (Skim.kind_safe (by decide : Kind.kwIn ≠ .eof)) hin
  have hopen := Skim.seq_safe (Skim.kind_safe (by decide : Kind.ident ≠ .eof)) hname
  unfold forRule
  simp only []
  rw [bind_take, List.length_cons]
  have ht := h.tail hne
  refine Outcome.Safe.step hne (Outcome.Safe.bind ht
    (orSkim_safe ht (expect_safe (by decide) ht) hopen) fun _ ts₁ h₁ hl₁ => ?_)
  refine Outcome.Safe.bind h₁ (orSkim_safe h₁ (expect_safe (by decide) h₁) hname)
    fun name ts₂ h₂ hl₂ => ?_
  refine Outcome.Safe.bind h₂ (orSkim_safe h₂ (expect_safe (by decide) h₂) hin)
    fun _ ts₃ h₃ hl₃ => ?_
  have hrange := (hr.assignment ts₃ h₃).within (n + 1 < 5 * (ts.length + 1) + 3) (by omega)
  refine Outcome.Safe.bind h₃ (orSkim_safe h₃ hrange (Skim.kind_safe (by decide)))
    fun range ts₄ h₄ hl₄ => ?_
  refine Outcome.Safe.bind h₄ (expect_safe (by decide) h₄) fun _ ts₅ h₅ hl₅ => ?_
  refine Outcome.Safe.bind h₅ ((block_safe hr h₅).within _ (by omega)) fun body ts₆ _ _ => ?_
  exact Outcome.Safe.done _ ts₆ _

theorem returnRule_safe (hr : r.Safe n) (hne : t.kind ≠ .eof) (h : Readable (t :: ts)) :
    (r.returnRule (t :: ts)).Safe (t :: ts) 1 (n + 1 < 5 * (t :: ts).length + 3) := by
  unfold returnRule
  rw [bind_take, List.length_cons]
  have ht := h.tail hne
  obtain ⟨u, us, rfl⟩ := ht.cons
  rw [bind_peek]
  refine Outcome.Safe.step hne ?_
  split
  · exact Outcome.Safe.done _ (u :: us) _
  · refine Outcome.Safe.bind ht ((hr.assignment _ ht).within _ (by omega)) fun value rest _ _ => ?_
    exact Outcome.Safe.done _ rest _

theorem params_safe (hr : r.Safe n) (h : Readable ts) :
    (r.params ts).Safe ts 0 (n < 5 * ts.length + 3) := by
  unfold params
  refine Outcome.Safe.bind h (skipNewlines_safe h) fun _ mid hm hl => ?_
  obtain ⟨u, us, rfl⟩ := hm.cons
  rw [bind_next]
  split
  · exact Outcome.Safe.done _ (u :: us) _
  · exact (hr.names _ hm).weaken (by omega) (by omega)

theorem declarationRule_safe (hr : r.Safe n) (hd : startsDeclaration ts = true)
    (h : Readable ts) : (r.declarationRule ts).Safe ts 1 (n + 1 < 5 * ts.length + 3) := by
  match ts, hd, h with
  | name :: arrow :: word :: ts, hd, h =>
    simp only [startsDeclaration, Bool.and_eq_true, decide_eq_true_eq] at hd
    obtain ⟨⟨hname, harrow⟩, hword⟩ := hd
    have hskim := Skim.seq_safe Skim.params_safe
      (Skim.kind_safe (by decide : Kind.rightParen ≠ .eof))
    unfold declarationRule
    rw [bind_take, bind_take, bind_take]
    simp only [List.length_cons]
    have h₁ := h.tail (by simp [hname])
    have h₂ := h₁.tail (by simp [harrow])
    have h₃ := h₂.tail (by simp [hword])
    refine Outcome.Safe.step (by simp [hname]) (Outcome.Safe.step (by simp [harrow])
      (Outcome.Safe.step (by simp [hword]) ?_))
    refine Outcome.Safe.bind h₃ (orSkim_safe h₃ (expect_safe (by decide) h₃) hskim)
      fun _ ts₁ h₄ hl₄ => ?_
    have hparams := (params_safe hr h₄).within
      (n + 1 < 5 * (ts.length + 1 + 1 + 1) + 3) (by omega)
    refine Outcome.Safe.bind h₄ (orSkim_safe h₄ hparams (Skim.kind_safe (by decide)))
      fun params ts₂ h₅ hl₅ => ?_
    refine Outcome.Safe.bind h₅ (expect_safe (by decide) h₅) fun _ ts₃ h₆ hl₆ => ?_
    refine Outcome.Safe.bind h₆ ((block_safe hr h₆).within _ (by omega)) fun body ts₄ _ _ => ?_
    cases splitOperator? name.lexeme with
    | none => exact Outcome.Safe.done _ ts₄ _
    | some parts => exact Outcome.Safe.done _ ts₄ _

theorem exprRule_safe (hr : r.Safe n) (h : Readable ts) :
    (r.exprRule ts).Safe ts 1 (n + 1 < 5 * ts.length + 3) := by
  rw [exprRule_eq]
  refine Outcome.Safe.bind h ((hr.assignment ts h).within _ (by omega)) fun e rest _ _ => ?_
  exact Outcome.Safe.done _ rest _

theorem statementRule_safe (hr : r.Safe n) (h : Readable ts) :
    (r.statementRule ts).Safe ts 1 (n + 1 < 5 * ts.length + 3) := by
  obtain ⟨t, ts, rfl⟩ := h.cons
  rw [statementRule_cons]
  split
  · rename_i hk
    exact ifRule_safe hr (by simp [hk]) h
  split
  · rename_i hk
    exact whileRule_safe hr (by simp [hk]) h
  split
  · rename_i hk
    exact forRule_safe hr (by simp [hk]) h
  split
  · rename_i hk
    exact returnRule_safe hr (by simp [hk]) h
  split
  · rename_i hd
    exact declarationRule_safe hr hd h
  · exact exprRule_safe hr h

end Statements

theorem assignmentRule_safe (hr : r.Safe n) (h : Readable ts) :
    (r.assignmentRule ts).Safe ts 1 (n + 1 < 5 * ts.length + 2) := by
  unfold assignmentRule
  refine Outcome.Safe.bind h ((hr.binary 1 ts h).within _ (by omega)) fun target mid hm hl => ?_
  obtain ⟨arrow, mid, rfl⟩ := hm.cons
  rw [bind_peek]
  split
  · rename_i hk
    have hne : arrow.kind ≠ .eof := by
      intro he
      simp [he] at hk
    rw [bind_take]
    simp only [List.length_cons] at hl
    have hm' := hm.tail hne
    refine Outcome.Safe.step hne (Outcome.Safe.bind hm'
      ((hr.assignment mid hm').within _ (by omega)) fun value rest _ _ => ?_)
    cases assignTo? target value with
    | none => exact Outcome.Safe.fail _ rest _ _
    | some tree => exact Outcome.Safe.done tree rest _
  · exact Outcome.Safe.done target (arrow :: mid) _

theorem arg_safe (hr : r.Safe n) (h : Readable ts) :
    (r.arg ts).Safe ts 1 (n < 5 * ts.length + 1) := by
  unfold arg
  rw [bind_ahead]
  split
  · rename_i hs
    match ts, hs, h with
    | name :: mark :: ts, hs, h =>
      simp only [startsNamed, Bool.and_eq_true, decide_eq_true_eq] at hs
      rw [bind_take, bind_take]
      simp only [List.length_cons]
      have h₁ := h.tail (by simp [hs.1])
      have h₂ := h₁.tail (by simp [hs.2])
      refine Outcome.Safe.step (by simp [hs.1]) (Outcome.Safe.step (by simp [hs.2]) ?_)
      refine Outcome.Safe.bind h₂ (skipNewlines_safe h₂) fun _ mid hm hl => ?_
      refine Outcome.Safe.bind hm ((hr.binary 1 mid hm).within _ (by omega)) fun value rest _ _ => ?_
      exact Outcome.Safe.done _ rest _
  · exact hr.binary 1 ts h

theorem argsRule_safe (hr : r.Safe n) (h : Readable ts) :
    (r.argsRule ts).Safe ts 1 (n + 1 < 5 * ts.length + 2) := by
  rw [argsRule_eq]
  exact commaList_safe id h ((arg_safe hr h).within _ (by omega))
    fun rest hrest hl => (hr.args rest hrest).within _ (by omega)

theorem namesRule_safe (hr : r.Safe n) (h : Readable ts) :
    (r.namesRule ts).Safe ts 1 (n + 1 < 5 * ts.length + 1) := by
  rw [namesRule_eq]
  exact commaList_safe Token.lexeme h (expect_safe (by decide) h)
    fun rest hrest hl => (hr.names rest hrest).within _ (by omega)

theorem call_safe (hr : r.Safe n) (name : Bytes) {t : Token} (hne : t.kind ≠ .eof)
    (h : Readable (t :: ts)) :
    (r.call name (t :: ts)).Safe (t :: ts) 1 (n < 5 * (t :: ts).length + 1) := by
  unfold call
  rw [bind_take, List.length_cons]
  have ht := h.tail hne
  refine Outcome.Safe.step hne (Outcome.Safe.bind ht (skipNewlines_safe ht) fun _ mid hm hl => ?_)
  obtain ⟨u, mid, rfl⟩ := hm.cons
  rw [bind_next]
  split
  · rw [bind_pure]
    refine Outcome.Safe.bind hm (expect_safe (by decide) hm) fun _ rest _ _ => ?_
    exact Outcome.Safe.done _ rest _
  · have hargs := (hr.args _ hm).within (n < 5 * (ts.length + 1) + 1) (by omega)
    refine Outcome.Safe.bind hm (orSkim_safe hm hargs (Skim.kind_safe (by decide)))
      fun args rest hrest _ => ?_
    refine Outcome.Safe.bind hrest (expect_safe (by decide) hrest) fun _ left _ _ => ?_
    exact Outcome.Safe.done _ left _

theorem nameOrCall_safe (hr : r.Safe n) (name : Bytes) (h : Readable ts) :
    (r.nameOrCall name ts).Safe ts 0 (n < 5 * ts.length + 1) := by
  obtain ⟨t, ts, rfl⟩ := h.cons
  unfold nameOrCall
  rw [bind_next]
  split
  · rename_i hk
    exact (call_safe hr name (by simp [of_decide_eq_true hk]) h).weaken (by omega) id
  · exact Outcome.Safe.done _ (t :: ts) _

theorem group_safe (hr : r.Safe n) (h : Readable ts) :
    (r.group ts).Safe ts 2 (n < 5 * ts.length + 2) := by
  unfold group
  refine Outcome.Safe.bind h (skipNewlines_safe h) fun _ ts₁ h₁ hl₁ => ?_
  have he := (hr.assignment ts₁ h₁).within (n < 5 * ts.length + 2) (by omega)
  refine Outcome.Safe.bind h₁ (orSkim_safe h₁ he (Skim.kind_safe (by decide)))
    fun e ts₂ h₂ _ => ?_
  refine Outcome.Safe.bind h₂ (skipNewlines_safe h₂) fun _ ts₃ h₃ _ => ?_
  refine Outcome.Safe.bind h₃ (expect_safe (by decide) h₃) fun _ ts₄ _ _ => ?_
  exact Outcome.Safe.done e ts₄ _

theorem atom_safe (hr : r.Safe n) (h : Readable ts) :
    (r.atom ts).Safe ts 1 (n + 1 < 5 * ts.length + 1) := by
  obtain ⟨t, ts, rfl⟩ := h.cons
  simp only [List.length_cons]
  rcases r.atom_cases ts t with ⟨e, he⟩ | hk | hk | ⟨e, he⟩ | ⟨hne, e, he⟩ | ⟨hl, _⟩
  · have hne : t.kind ≠ .eof := by
      intro hk
      simp [literalTree?, hk] at he
    rw [r.atom_literal ts he]
    exact Outcome.Safe.step hne (Outcome.Safe.done e ts _)
  · have hne : t.kind ≠ .eof := by simp [hk]
    rw [r.atom_ident ts hk]
    exact Outcome.Safe.step hne ((nameOrCall_safe hr _ (h.tail hne)).within _ (by omega))
  · have hne : t.kind ≠ .eof := by simp [hk]
    rw [r.atom_group ts hk]
    exact Outcome.Safe.step hne ((group_safe hr (h.tail hne)).weaken (by omega) (by omega))
  · rw [he]
    exact Outcome.Safe.fail e (t :: ts) _ _
  · rw [he]
    exact Outcome.Safe.step hne (Outcome.Safe.fail e ts _ _)
  · have htyped := h.typed t (by simp)
    rw [hl] at htyped
    contradiction

theorem suffixesRule_safe (hr : r.Safe n) (e : Node) (h : Readable ts) :
    (r.suffixesRule e ts).Safe ts 0 (n + 1 < 5 * ts.length + 1) := by
  obtain ⟨t, ts, rfl⟩ := h.cons
  rw [suffixesRule_cons, List.length_cons]
  split
  · rename_i hk
    have hne : t.kind ≠ .eof := by simp [hk]
    have ht := h.tail hne
    have hi := (hr.assignment ts ht).within (n + 1 < 5 * (ts.length + 1) + 1) (by omega)
    refine Outcome.Safe.step hne (Outcome.Safe.bind ht
      (orSkim_safe ht hi (Skim.kind_safe (by decide))) fun i ts₁ h₁ hl₁ => ?_)
    refine Outcome.Safe.bind h₁ (expect_safe (by decide) h₁) fun _ ts₂ h₂ hl₂ => ?_
    exact (hr.suffixes _ ts₂ h₂).within _ (by omega)
  split
  · rename_i hk
    have hne : t.kind ≠ .eof := by simp [hk]
    have ht := h.tail hne
    refine Outcome.Safe.step hne (Outcome.Safe.bind ht (expect_safe (by decide) ht)
      fun name ts₁ h₁ hl₁ => ?_)
    exact (hr.suffixes _ ts₁ h₁).within _ (by omega)
  · exact Outcome.Safe.done e (t :: ts) _

theorem unary_safe (hr : r.Safe n) (h : Readable ts) :
    (r.unary ts).Safe ts 1 (n + 1 < 5 * ts.length + 1) := by
  obtain ⟨t, ts, rfl⟩ := h.cons
  unfold unary
  rw [bind_peek]
  split
  · rename_i hk
    have hne : t.kind ≠ .eof := by
      intro he
      simp [he] at hk
    have ht := h.tail hne
    rw [bind_take, List.length_cons]
    refine Outcome.Safe.step hne (Outcome.Safe.bind ht ((hr.binary 3 ts ht).within _ (by omega))
      fun operand rest _ _ => ?_)
    exact Outcome.Safe.done _ rest _
  · refine Outcome.Safe.bind h (atom_safe hr h) fun e mid hm hl => ?_
    exact (hr.suffixes e mid hm).within _ (by omega)

theorem climbRule_safe (hr : r.Safe n) (least : Nat) (left : Node) (h : Readable ts) :
    (r.climbRule least left ts).Safe ts 0 (n + 1 < 5 * ts.length + 1) := by
  obtain ⟨op, ts, rfl⟩ := h.cons
  unfold climbRule
  rw [bind_peek, List.length_cons]
  cases hlevel : level? op.kind with
  | none => exact Outcome.Safe.done left (op :: ts) _
  | some level =>
      have hne : op.kind ≠ .eof := by
        intro he
        simp [he, level?] at hlevel
      have ht := h.tail hne
      simp only []
      split
      · exact Outcome.Safe.done left (op :: ts) _
      · rw [bind_take]
        refine Outcome.Safe.step hne (Outcome.Safe.bind ht ((hr.binary _ ts ht).within _ (by omega))
          fun right mid hm hl => ?_)
        obtain ⟨t, mid, rfl⟩ := hm.cons
        rw [bind_peek]
        split
        · exact Outcome.Safe.fail _ (t :: mid) _ _
        · exact (hr.climb least _ _ hm).within _ (by omega)

theorem binaryRule_safe (hr : r.Safe n) (least : Nat) (h : Readable ts) :
    (r.binaryRule least ts).Safe ts 1 (n + 1 < 5 * ts.length + 1) := by
  unfold binaryRule
  refine Outcome.Safe.bind h (unary_safe hr h) fun left mid hm hl => ?_
  exact (hr.climb least left mid hm).within _ (by omega)

theorem Safe.up (hr : r.Safe n) : r.up.Safe (n + 1) where
  statements closer _ h := statementsRule_safe hr closer h
  statement _ h := statementRule_safe hr h
  assignment _ h := assignmentRule_safe hr h
  binary least _ h := binaryRule_safe hr least h
  climb least left _ h := climbRule_safe hr least left h
  suffixes e _ h := suffixesRule_safe hr e h
  args _ h := argsRule_safe hr h
  names _ h := namesRule_safe hr h

end Rules

/-- The rules of every depth are safe for that depth. -/
theorem rules_safe (n : Nat) : (rules n).Safe n := by
  induction n with
  | zero => exact Rules.Safe.spent
  | succ n ih => exact ih.up

end RToJulia.Grammar

namespace RToJulia

open Grammar

/-- A readable list is a program or has a fault: the depth is enough. -/
theorem parse_ne_halt {ts : List Token} (h : Readable ts) (reason : Grammar.Halt) :
    parse ts ≠ .error (.halt reason) := by
  have hs := (rules_safe (depthFor ts.length)).statements .eof ts h
  unfold parse
  cases hp : (rules (depthFor ts.length)).statements .eof ts with
  | done ss rest => simp
  | fail e rest => simp
  | halt r =>
      rw [hp] at hs
      have hshort : depthFor ts.length < 5 * ts.length + 4 := hs.2
      unfold depthFor at hshort
      omega

end RToJulia
