import RToJulia.Proofs.Grammar.Canonical
import RToJulia.Proofs.Grammar.Soundness

/-! # Reading canonical tokens

The rules of every depth read the canonical tokens of a well-formed tree back to
that tree, unless the depth runs out, which a whole program never lets happen.
The trees that can be read are therefore exactly the well-formed ones.
-/

namespace RToJulia.Grammar

open RToJulia.Grammar.Parser Canonical

variable {α β : Type}

/-! ## Answers up to depth -/

/-- The outcome is `a` with `rest` left, unless the depth ran out. -/
def Outcome.Answers (a : α) (rest : List Token) (o : Outcome α) : Prop :=
  o = .halt .depth ∨ o = .done a rest

namespace Outcome.Answers

variable {ts mid rest : List Token} {a : α} {b : β}

theorem done (a : α) (rest : List Token) : (Outcome.done a rest).Answers a rest :=
  .inr rfl

theorem bind {p : Parser α} {f : α → Parser β} (hp : (p ts).Answers a mid)
    (hf : (f a mid).Answers b rest) : ((p >>= f) ts).Answers b rest := by
  rcases hp with hp | hp
  · rw [bind_halt f hp]
    exact .inl rfl
  · rw [bind_done f hp]
    exact hf

theorem orSkim {p : Parser α} (skim : Skim) (hp : (p ts).Answers a rest) :
    ((p.orSkim skim) ts).Answers a rest := by
  unfold Parser.orSkim
  rcases hp with hp | hp
  · rw [hp]
    exact .inl rfl
  · rw [hp]
    exact .inr rfl

theorem expect {f : Token → Parser β} {kind : Kind} {t : Token} (h : t.kind = kind)
    (hf : (f t ts).Answers b rest) : ((Parser.expect kind >>= f) (t :: ts)).Answers b rest := by
  rw [bind_done f (expect_pos h ts)]
  exact hf

theorem expectOrSkim {f : Token → Parser β} {kind : Kind} {skim : Skim} {t : Token}
    (h : t.kind = kind) (hf : (f t ts).Answers b rest) :
    (((Parser.expect kind).orSkim skim >>= f) (t :: ts)).Answers b rest :=
  (orSkim skim (.inr (expect_pos h ts))).bind hf

theorem skipNewlines {f : Unit → Parser β} {t : Token} (h : t.kind ≠ .newline)
    (hf : (f () (t :: ts)).Answers b rest) :
    ((Parser.skipNewlines >>= f) (t :: ts)).Answers b rest := by
  rw [bind_done f (skipNewlines_cons h ts)]
  exact hf

end Outcome.Answers

/-! ## Where an expression ends -/

def endsExpr : Kind → Bool
  | .rightParen | .rightBracket | .comma | .semicolon => true
  | _ => false

theorem endsExpr_spec {k : Kind} (h : endsExpr k = true) :
    level? k = none ∧ k ≠ .leftBracket ∧ k ≠ .dollar ∧ k ≠ .leftParen ∧ k ≠ .backArrow ∧
      k ≠ .equal ∧ k ≠ .newline := by
  cases k <;> simp_all [endsExpr, level?]

theorem level?_pos {k : Kind} {level : Nat} (h : level? k = some level) : 1 ≤ level := by
  unfold level? at h
  split at h <;> simp at h <;> omega

section Climb

variable {t : Token} {ts rest : List Token} {e : Node}

theorem suffixes_end (n : Nat) (e : Node) (rest : List Token) (hb : t.kind ≠ .leftBracket)
    (hd : t.kind ≠ .dollar) : ((rules n).suffixes e (t :: rest)).Answers e (t :: rest) := by
  cases n with
  | zero => exact .inl rfl
  | succ n =>
      refine .inr ?_
      change (rules n).suffixesRule e (t :: rest) = _
      rw [Rules.suffixesRule_cons, if_neg hb, if_neg hd]

/-- An operator of at least the least level, and its right operand. -/
theorem climbRule_cons {r : Rules} {least level : Nat} {left : Node}
    (h : level? t.kind = some level) (hl : least ≤ level) (ts : List Token) :
    r.climbRule least left (t :: ts) =
      (r.binary (rightLevel t.kind level) >>= fun right => peek >>= fun next =>
        if t.kind.isComparison && next.kind.isComparison then
          failAt next (.nonAssociative next.lexeme)
        else r.climb least (.binary t.lexeme left right)) ts := by
  unfold Rules.climbRule
  rw [bind_peek, h]
  dsimp only
  rw [if_neg (Nat.not_lt.mpr hl), bind_take]

theorem climb_end (n least : Nat) (left : Node) (rest : List Token) (h : level? t.kind = none) :
    ((rules n).climb least left (t :: rest)).Answers left (t :: rest) := by
  cases n with
  | zero => exact .inl rfl
  | succ n =>
      refine .inr ?_
      change (rules n).climbRule least left (t :: rest) = _
      unfold Rules.climbRule
      rw [bind_peek]
      simp only [h]
      rfl

theorem binary_of_unary (hl : level? t.kind = none)
    (h : ∀ n, ((rules n).unary ts).Answers e (t :: rest)) (n least : Nat) :
    ((rules n).binary least ts).Answers e (t :: rest) := by
  cases n with
  | zero => exact .inl rfl
  | succ n => exact (h n).bind (climb_end n least e rest hl)

theorem assignment_of_binary (ha : t.kind ≠ .backArrow) (he : t.kind ≠ .equal)
    (h : ∀ n, ((rules n).binary 1 ts).Answers e (t :: rest)) (n : Nat) :
    ((rules n).assignment ts).Answers e (t :: rest) := by
  cases n with
  | zero => exact .inl rfl
  | succ n =>
      refine Outcome.Answers.bind (h n) ?_
      rw [bind_peek]
      simp only [ha, he, decide_false, Bool.or_self, Bool.false_eq_true, if_false]
      exact .done e (t :: rest)

theorem assignment_of_unary (ht : endsExpr t.kind = true)
    (h : ∀ n, ((rules n).unary ts).Answers e (t :: rest)) (n : Nat) :
    ((rules n).assignment ts).Answers e (t :: rest) := by
  obtain ⟨hl, -, -, -, ha, he, -⟩ := endsExpr_spec ht
  exact assignment_of_binary ha he (fun n => binary_of_unary hl h n 1) n

/-- What does not begin with a sign is an atom and its suffixes. -/
theorem unary_of_atom {s : Token} {mid : List Token} {a : Node}
    (hsign : (s.kind = .bang || s.kind = .minus) = false) (n : Nat)
    (h : ((rules n).atom (s :: ts)).Answers a mid)
    (hs : ((rules n).suffixes a mid).Answers e rest) :
    ((rules n).unary (s :: ts)).Answers e rest := by
  unfold Rules.unary
  rw [bind_peek, hsign, if_neg Bool.false_ne_true]
  exact h.bind hs

end Climb

/-! ## Expressions -/

def Recovers (e : Node) : Prop :=
  (∃ s ts, expr e = s :: ts ∧ s.kind ≠ .newline) ∧
    ∀ n t rest, endsExpr t.kind = true →
      ((rules n).assignment (expr e ++ t :: rest)).Answers e (t :: rest)

theorem grouped_append (ts rest : List Token) :
    grouped ts ++ rest = mark .leftParen "(" :: (ts ++ mark .rightParen ")" :: rest) := by
  simp [grouped]

section Grouped

variable {e : Node}

/-- An expression in parentheses is read back in front of anything. -/
theorem atom_grouped (h : Recovers e) (n : Nat) (rest : List Token) :
    ((rules n).atom (grouped (expr e) ++ rest)).Answers e rest := by
  obtain ⟨⟨s, ts, hs, hnl⟩, hread⟩ := h
  have hassign := hread n (mark .rightParen ")") rest rfl
  rw [grouped_append, Rules.atom_group _ _ rfl]
  rw [hs] at hassign ⊢
  refine .skipNewlines hnl (.bind (hassign.orSkim _) ?_)
  exact .skipNewlines (by decide) (.expect rfl (.done e rest))

variable {t : Token} (rest : List Token)

theorem unary_grouped (h : Recovers e) (hb : t.kind ≠ .leftBracket) (hd : t.kind ≠ .dollar)
    (n : Nat) : ((rules n).unary (grouped (expr e) ++ t :: rest)).Answers e (t :: rest) :=
  unary_of_atom rfl n (atom_grouped h n (t :: rest))
    (suffixes_end n e rest hb hd)

theorem binary_grouped (h : Recovers e) (ht : endsExpr t.kind = true) (n least : Nat) :
    ((rules n).binary least (grouped (expr e) ++ t :: rest)).Answers e (t :: rest) := by
  obtain ⟨hl, hb, hd, -⟩ := endsExpr_spec ht
  exact binary_of_unary hl (unary_grouped rest h hb hd) n least

theorem assignment_grouped (h : Recovers e) (ht : endsExpr t.kind = true) (n : Nat) :
    ((rules n).assignment (grouped (expr e) ++ t :: rest)).Answers e (t :: rest) := by
  obtain ⟨-, -, -, -, ha, he, -⟩ := endsExpr_spec ht
  exact assignment_of_binary ha he (fun n => binary_grouped rest h ht n 1) n

end Grouped

section Forms

variable {target i value left right e : Node}

theorem recovers_literal {e : Node} {t : Token} (ht : expr e = [t]) (h : literalTree? t = some e)
    (hsign : (t.kind = .bang || t.kind = .minus) = false) (hnl : t.kind ≠ .newline) : Recovers e := by
  refine ⟨⟨t, [], ht, hnl⟩, fun n u rest hu => ?_⟩
  obtain ⟨-, hbr, hd, -⟩ := endsExpr_spec hu
  rw [ht]
  refine assignment_of_unary hu (fun n => ?_) n
  exact unary_of_atom hsign n (.inr (Rules.atom_literal _ _ h)) (suffixes_end n e rest hbr hd)

/-- A name is read back in front of a token that neither calls it nor goes on from it. -/
theorem unary_var (x : Bytes) {t : Token} (rest : List Token) (hp : t.kind ≠ .leftParen)
    (hb : t.kind ≠ .leftBracket) (hd : t.kind ≠ .dollar) (n : Nat) :
    ((rules n).unary (name x :: t :: rest)).Answers (.var x) (t :: rest) := by
  refine unary_of_atom rfl n ?_ (suffixes_end n _ rest hb hd)
  rw [Rules.atom_ident _ _ rfl]
  unfold Rules.nameOrCall
  rw [bind_next, decide_eq_false hp]
  exact .inr rfl

theorem recovers_var (x : Bytes) : Recovers (.var x) := by
  refine ⟨⟨name x, [], by simp [expr], nofun⟩, fun n t rest ht => ?_⟩
  obtain ⟨-, hb, hd, hp, -⟩ := endsExpr_spec ht
  simp only [expr, List.cons_append, List.nil_append]
  exact assignment_of_unary ht (unary_var x rest hp hb hd) n

theorem recovers_unary (op : Bytes) (h : Recovers e) : Recovers (.unary op e) := by
  have hk := sign_kind op
  refine ⟨⟨sign op, grouped (expr e), by simp [expr], by rcases hk with hk | hk <;> simp [hk]⟩,
    fun n t rest ht => assignment_of_unary ht (fun n => ?_) n⟩
  simp only [expr, List.cons_append]
  unfold Rules.unary
  rw [bind_peek, if_pos (by rcases hk with hk | hk <;> simp [hk]), bind_take]
  exact (binary_grouped rest h ht n 3).bind (.done _ _)

/-- The operator in front of a grouped operand is taken whatever its level, and nothing after
it is. -/
theorem recovers_binary (op : Bytes) (hl : Recovers left) (hr : Recovers right) :
    Recovers (.binary op left right) := by
  obtain ⟨level, hlevel⟩ := Option.isSome_iff_exists.mp (operator_level op)
  have hb : (operator op).kind ≠ .leftBracket := fun h => by simp [h, level?] at hlevel
  have hd : (operator op).kind ≠ .dollar := fun h => by simp [h, level?] at hlevel
  refine ⟨⟨mark .leftParen "(", _, by simp [expr, grouped]; rfl, by decide⟩, fun n t rest ht => ?_⟩
  obtain ⟨hend, -, -, -, ha, he, -⟩ := endsExpr_spec ht
  refine assignment_of_binary ha he (fun n => ?_) n
  cases n with
  | zero => exact .inl rfl
  | succ n =>
      simp only [expr, List.append_assoc, List.cons_append]
      refine .bind (unary_grouped _ hl hb hd n) ?_
      cases n with
      | zero => exact .inl rfl
      | succ n =>
          change ((rules n).climbRule 1 left _).Answers _ _
          rw [climbRule_cons hlevel (level?_pos hlevel)]
          refine .bind (binary_grouped rest hr ht n _) ?_
          have hcmp : t.kind.isComparison = false := by
            revert ht
            cases t.kind <;> simp [endsExpr, Kind.isComparison]
          rw [bind_peek, hcmp, Bool.and_false, if_neg Bool.false_ne_true]
          exact climb_end n 1 _ rest hend

/-- An index behind a grouped target is read back in front of a token that goes on from neither. -/
theorem unary_index (ht : Recovers target) (hi : Recovers i) {t : Token} (rest : List Token)
    (hb : t.kind ≠ .leftBracket) (hd : t.kind ≠ .dollar) (n : Nat) :
    ((rules n).unary (expr (.index target i) ++ t :: rest)).Answers (.index target i)
      (t :: rest) := by
  simp only [expr, List.append_assoc, List.cons_append, List.nil_append]
  refine unary_of_atom rfl n (atom_grouped ht n _) ?_
  cases n with
  | zero => exact .inl rfl
  | succ n =>
      change ((rules n).suffixesRule target _).Answers _ _
      rw [Rules.suffixesRule_cons, if_pos (by decide)]
      refine .bind ((assignment_grouped _ hi rfl n).orSkim _) (.expect rfl ?_)
      exact suffixes_end n _ rest hb hd

theorem recovers_index (ht : Recovers target) (hi : Recovers i) : Recovers (.index target i) := by
  refine ⟨⟨mark .leftParen "(", _, by simp [expr, grouped]; rfl, by decide⟩, fun n t rest hend => ?_⟩
  obtain ⟨-, hb, hd, -⟩ := endsExpr_spec hend
  exact assignment_of_unary hend (unary_index ht hi rest hb hd) n

theorem recovers_field (x : Bytes) (ht : Recovers target) : Recovers (.field target x) := by
  refine ⟨⟨mark .leftParen "(", _, by simp [expr, grouped]; rfl, by decide⟩, fun n t rest hend => ?_⟩
  obtain ⟨-, hb, hd, -⟩ := endsExpr_spec hend
  refine assignment_of_unary hend (fun n => ?_) n
  simp only [expr, List.append_assoc, List.cons_append, List.nil_append]
  refine unary_of_atom rfl n (atom_grouped ht n _) ?_
  cases n with
  | zero => exact .inl rfl
  | succ n =>
      change ((rules n).suffixesRule target _).Answers _ _
      rw [Rules.suffixesRule_cons, if_neg (by decide), if_pos (by decide)]
      exact .expect rfl (suffixes_end n _ rest hb hd)

/-- An arrow behind a target that can be assigned, and a grouped value. -/
theorem assignment_arrow {tree : Node} {ts : List Token} (hv : Recovers value)
    (htree : assignTo? target value = some tree) {t : Token} (rest : List Token)
    (ht : endsExpr t.kind = true)
    (h : ∀ n, ((rules n).unary ts).Answers target
      (mark .backArrow "<-" :: (grouped (expr value) ++ t :: rest))) (n : Nat) :
    ((rules n).assignment ts).Answers tree (t :: rest) := by
  cases n with
  | zero => exact .inl rfl
  | succ n =>
      refine Outcome.Answers.bind (binary_of_unary rfl h n 1) ?_
      rw [bind_peek, if_pos (by decide), bind_take]
      refine .bind (assignment_grouped rest hv ht n) ?_
      simp only [htree]
      exact .done tree (t :: rest)

theorem recovers_assign (x : Bytes) (hv : Recovers value) : Recovers (.assign x value) := by
  refine ⟨⟨name x, _, by simp [expr]; rfl, nofun⟩, fun n t rest ht => ?_⟩
  simp only [expr, List.cons_append]
  exact assignment_arrow hv rfl rest ht (unary_var x _ (by decide) (by decide) (by decide)) n

theorem recovers_assignIndex (ht : Recovers target) (hi : Recovers i) (hv : Recovers value) :
    Recovers (.assignIndex target i value) := by
  refine ⟨⟨mark .leftParen "(", _, by simp [expr, grouped]; rfl, by decide⟩, fun n t rest hend => ?_⟩
  have htarget : expr (.assignIndex target i value) ++ t :: rest =
      expr (.index target i) ++ mark .backArrow "<-" :: (grouped (expr value) ++ t :: rest) := by
    simp [expr]
  rw [htarget]
  exact assignment_arrow hv rfl rest hend (unary_index ht hi _ (by decide) (by decide)) n

end Forms

/-! ## Lists and calls -/

section Lists

variable {item : Parser α} {value : α → β} {more : Parser (List β)} {ts rest : List Token} {a : α}

theorem commaList_last {t : Token} (ht : t.kind = .rightParen)
    (h : (item ts).Answers a (t :: rest)) :
    (commaList item value more ts).Answers [value a] (t :: rest) := by
  refine h.bind (.skipNewlines (by simp [ht]) ?_)
  rw [bind_next, ht]
  exact .inr rfl

theorem commaList_more {comma s : Token} {mid : List Token} {bs : List β}
    (hc : comma.kind = .comma) (hs : s.kind ≠ .newline) (h : (item ts).Answers a (comma :: s :: mid))
    (hm : (more (s :: mid)).Answers bs rest) :
    (commaList item value more ts).Answers (value a :: bs) rest := by
  refine h.bind (.skipNewlines (by simp [hc]) ?_)
  rw [bind_next, if_pos (by simp [hc]), bind_take]
  exact .skipNewlines hs (hm.bind (.done _ rest))

end Lists

/-- The tokens `ts` of one item of a list: they begin with neither a line break nor a closing
parenthesis, and the rule of items reads them back in front of a token that ends them. -/
def RecoversItem (item : Nat → Parser α) (a : α) (ts : List Token) : Prop :=
  (∃ s mid, ts = s :: mid ∧ s.kind ≠ .newline ∧ s.kind ≠ .rightParen) ∧
    ∀ n t rest, endsExpr t.kind = true → (item n (ts ++ t :: rest)).Answers a (t :: rest)

section Separated

variable {ι : Type} {items : List ι} {comma close : Token}

/-- Items with commas between them begin as the first one does. -/
theorem separated_front (comma : Token) {toks : ι → List Token} {i : ι} {s : Token}
    {mid : List Token} (h : toks i = s :: mid) (items : List ι) (rest : List Token) :
    ∃ left, [comma].intercalate ((i :: items).map toks) ++ rest = s :: left := by
  cases items <;> simp [h, List.intercalate_cons_cons]

/-- A rule that reads items with commas between them reads separated items back. -/
theorem separated_answers (item : Nat → Parser α) (list : Nat → Parser (List β)) (value : α → β)
    (toks : ι → List Token) (tree : ι → β) (hzero : ∀ ts, list 0 ts = .halt .depth)
    (hsucc : ∀ n, list (n + 1) = commaList (item n) value (list n)) (hcomma : comma.kind = .comma)
    (hclose : close.kind = .rightParen) (hne : items ≠ [])
    (h : ∀ i ∈ items, ∃ a, value a = tree i ∧ RecoversItem item a (toks i)) (n : Nat)
    (rest : List Token) :
    (list n ([comma].intercalate (items.map toks) ++ close :: rest)).Answers (items.map tree)
      (close :: rest) := by
  induction items generalizing n with
  | nil => contradiction
  | cons i items ih =>
      obtain ⟨a, ha, -, hread⟩ := h i (by simp)
      cases n with
      | zero => exact .inl (hzero _)
      | succ n =>
          rw [hsucc, List.map_cons (f := tree), ← ha]
          cases items with
          | nil =>
              simp only [List.map_cons, List.map_nil, List.intercalate_singleton]
              exact commaList_last hclose (hread n _ rest (by rw [hclose]; rfl))
          | cons j items =>
              have hmore := ih (by simp) (fun c hc => h c (by simp [hc])) n
              obtain ⟨_, _, ⟨s, mid, hs, hnl, -⟩, -⟩ := h j (by simp)
              obtain ⟨left, hleft⟩ := separated_front comma hs items (close :: rest)
              rw [hleft] at hmore
              refine commaList_more hcomma hnl ?_ hmore
              rw [← hleft]
              simpa [List.intercalate_cons_cons] using hread n comma
                ([comma].intercalate ((j :: items).map toks) ++ close :: rest) (by rw [hcomma]; rfl)

theorem separated_eq_intercalate (items : List (List Token)) :
    separated items = [mark .comma ","].intercalate items := by
  induction items with
  | nil => rfl
  | cons item items ih =>
      cases items with
      | nil => simp [separated]
      | cons second items => simp [separated, List.intercalate_cons_cons, ih]

end Separated

theorem names_answers {names : List Bytes} (hne : names ≠ []) (n : Nat) (rest : List Token) :
    ((rules n).names (separated (names.map fun x => [name x]) ++ mark .rightParen ")" ::
      rest)).Answers names (mark .rightParen ")" :: rest) := by
  rw [separated_eq_intercalate, ← List.map_id names, List.map_map]
  refine separated_answers (fun _ => expect .ident) (fun n => (rules n).names) Token.lexeme
    (fun x => [name x]) id (fun _ => rfl) (fun n => Rules.namesRule_eq (rules n)) rfl rfl hne ?_ n
    rest
  intro x _
  refine ⟨name x, rfl, ⟨name x, [], rfl, nofun, nofun⟩, fun n t rest _ => ?_⟩
  exact .inr (expect_pos rfl (t :: rest))

def RecoversArg (a : Node) : Prop :=
  RecoversItem (fun n => (rules n).arg) a (arg a)

section Calls

variable {e : Node} {f : Bytes} {as : List Node}

theorem startsNamed_of_ne {s : Token} (h : s.kind ≠ .ident) (ts : List Token) :
    startsNamed (s :: ts) = false := by
  cases ts <;> simp [startsNamed, h]

theorem recoversArg_expr (hn : e.isNamed = false) (h : Recovers e) : RecoversArg e := by
  have harg : arg e = grouped (expr e) := by simp [arg, hn]
  rw [RecoversArg, harg]
  refine ⟨⟨mark .leftParen "(", _, rfl, by decide, by decide⟩, fun n t rest ht => ?_⟩
  change ((rules n).arg _).Answers _ _
  unfold Rules.arg
  have hstart : startsNamed (grouped (expr e) ++ t :: rest) = false :=
    startsNamed_of_ne (by decide) _
  rw [bind_ahead, hstart, if_neg Bool.false_ne_true]
  exact binary_grouped rest h ht n 1

theorem recoversArg_named (x : Bytes) (h : Recovers e) : RecoversArg (.named x e) := by
  have harg : arg (.named x e) = name x :: mark .equal "=" :: grouped (expr e) := by
    simp [arg, Node.isNamed, expr]
  rw [RecoversArg, harg]
  refine ⟨⟨name x, _, rfl, by simp [name, mark], by simp [name, mark]⟩, fun n t rest ht => ?_⟩
  change ((rules n).arg _).Answers _ _
  unfold Rules.arg
  simp only [List.cons_append]
  have hstart : startsNamed (name x :: mark .equal "=" :: (grouped (expr e) ++ t :: rest)) = true :=
    rfl
  rw [bind_ahead, hstart, if_pos rfl, bind_take, bind_take]
  refine .skipNewlines (by decide) ?_
  exact (binary_grouped rest h ht n 1).bind (.done _ _)

/-- A call is read back from the tokens of its arguments. -/
theorem call_answers {ι : Type} {items : List ι} {o comma close : Token} {toks : ι → List Token}
    {tree : ι → Node} (hcomma : comma.kind = .comma) (hclose : close.kind = .rightParen)
    (h : ∀ i ∈ items, RecoversItem (fun n => (rules n).arg) (tree i) (toks i)) (n : Nat)
    (rest : List Token) :
    ((rules n).call f (o :: ([comma].intercalate (items.map toks) ++ close :: rest))).Answers
      (callTree f (items.map tree)) rest := by
  unfold Rules.call
  rw [bind_take]
  cases items with
  | nil =>
      refine .skipNewlines (by simp [hclose]) ?_
      rw [bind_next, if_pos (by simp [hclose]), bind_pure]
      exact .expect hclose (.done _ rest)
  | cons i items =>
      have hargs := separated_answers (fun n => (rules n).arg) (fun n => (rules n).args) id toks tree
        (fun _ => rfl) (fun n => Rules.argsRule_eq (rules n)) hcomma hclose (List.cons_ne_nil i items)
        (fun j hj => ⟨tree j, rfl, h j hj⟩) n rest
      obtain ⟨⟨s, mid, hs, hnl, hp⟩, -⟩ := h i (by simp)
      obtain ⟨left, hleft⟩ := separated_front comma hs items (close :: rest)
      rw [hleft] at hargs ⊢
      refine .skipNewlines hnl ?_
      rw [bind_next, decide_eq_false hp]
      exact (hargs.orSkim _).bind (.expect hclose (.done _ rest))

/-- A call of a name whose tree is not a plain call is read back as well. -/
theorem recovers_callTree {tree : Node} (htree : callTree f as = tree)
    (htoks : expr tree = name f :: mark .leftParen "(" :: separated (as.map arg) ++
      [mark .rightParen ")"])
    (h : ∀ a ∈ as, RecoversArg a) : Recovers tree := by
  refine ⟨⟨name f, _, htoks, nofun⟩, fun n t rest ht => ?_⟩
  obtain ⟨-, hb, hd, -⟩ := endsExpr_spec ht
  refine assignment_of_unary ht (fun n => ?_) n
  rw [htoks]
  simp only [List.cons_append, List.append_assoc, List.nil_append]
  refine unary_of_atom rfl n ?_ (suffixes_end n tree rest hb hd)
  have hcall : ((rules n).call f (mark .leftParen "(" :: ([mark .comma ","].intercalate
      (as.map arg) ++ mark .rightParen ")" :: t :: rest))).Answers (callTree f (as.map id))
      (t :: rest) := call_answers rfl rfl h n (t :: rest)
  rw [List.map_id] at hcall
  rw [Rules.atom_ident _ _ rfl, ← htree, separated_eq_intercalate]
  exact hcall

theorem callTree_call (ht : Node.isTypeTest f as = false) : callTree f as = .call f as := by
  unfold callTree
  split
  · rename_i test arg htest
    split
    · rfl
    · rename_i hn
      simp [Node.isTypeTest, htest, hn] at ht
  · rfl

theorem recovers_call (ht : Node.isTypeTest f as = false) (h : ∀ a ∈ as, RecoversArg a) :
    Recovers (.call f as) :=
  recovers_callTree (callTree_call ht) (by simp [expr, args_eq_map]) h

theorem recovers_predicate {test : Predicate} (ht : test.isKnown = true)
    (hn : e.isNamed = false) (h : Recovers e) : Recovers (.predicate test e) := by
  have htree : callTree test.name [e] = .predicate test e := by
    simp [callTree, of_decide_eq_true ht, hn]
  refine recovers_callTree htree (by simp [expr, separated, arg, hn]) ?_
  intro a ha
  cases List.mem_singleton.mp ha
  exact recoversArg_expr hn h

end Calls

open Node

mutual

theorem recovers_expr : ∀ e : Node, isExpr e = true → Recovers e
  | .assign x value, h => recovers_assign x (recovers_expr value (by simpa [isExpr] using h))
  | .assignIndex target i value, h => by
      simp only [isExpr, Bool.and_eq_true] at h
      exact recovers_assignIndex (recovers_expr target h.1.1) (recovers_expr i h.1.2)
        (recovers_expr value h.2)
  | .call f as, h => by
      simp only [isExpr, Bool.and_eq_true, Bool.not_eq_true'] at h
      exact recovers_call h.2 (recovers_args as h.1)
  | .binary op left right, h => by
      simp only [isExpr, Bool.and_eq_true] at h
      exact recovers_binary op (recovers_expr left h.1) (recovers_expr right h.2)
  | .unary op operand, h => recovers_unary op (recovers_expr operand (by simpa [isExpr] using h))
  | .var x, _ => recovers_var x
  | .int _, _ | .float _, _ | .string _, _ | .bool _, _ =>
      recovers_literal (by simp [expr]; rfl) rfl rfl (by simp)
  | .index target i, h => by
      simp only [isExpr, Bool.and_eq_true] at h
      exact recovers_index (recovers_expr target h.1) (recovers_expr i h.2)
  | .field target x, h => recovers_field x (recovers_expr target (by simpa [isExpr] using h))
  | .predicate test e, h => by
      simp only [isExpr, Bool.and_eq_true] at h
      exact recovers_predicate h.1 (isNamed_of_isExpr h.2) (recovers_expr e h.2)
  | .gap, h | .program _, h | .block _, h | .exprStmt _, h | .ifElse .., h | .whileLoop .., h
  | .forLoop .., h | .function .., h | .operator .., h | .ret _, h | .named .., h => by
      simp [isExpr] at h

theorem recovers_named : ∀ a : Node, isNamedExpr a = true → RecoversArg a
  | .named x value, h => recoversArg_named x (recovers_expr value (by simpa [isNamedExpr] using h))
  | .gap, h | .program _, h | .block _, h | .assign .., h | .assignIndex .., h | .exprStmt _, h
  | .ifElse .., h | .whileLoop .., h | .forLoop .., h | .function .., h | .operator .., h
  | .ret _, h | .call .., h | .binary .., h | .unary .., h | .var _, h | .int _, h | .float _, h
  | .string _, h | .bool _, h | .index .., h | .field .., h | .predicate .., h => by
      simp [isNamedExpr] at h

theorem recovers_args : ∀ as : List Node, areArgs as = true → ∀ a ∈ as, RecoversArg a
  | [], _ => by simp
  | a :: as, h => by
      simp only [areArgs, Bool.and_eq_true, Bool.or_eq_true] at h
      have hexpr := recovers_expr a
      have hnamed := recovers_named a
      have hrest := recovers_args as h.2
      intro b hb
      rcases List.mem_cons.mp hb with rfl | hb
      · rcases h.1 with he | he
        · exact recoversArg_expr (isNamed_of_isExpr he) (hexpr he)
        · exact hnamed he
      · exact hrest b hb

end

/-! ## Statements -/

/-- The canonical tokens of a statement are read back in front of a semicolon; they begin with
a token that neither closes a list of statements nor separates two. -/
def RecoversStatement (s : Node) : Prop :=
  (∃ t ts, statement s = t :: ts ∧ t.kind ≠ .eof ∧ t.kind ≠ .rightBrace ∧
    t.kind.isSeparator = false) ∧
    ∀ n t rest, t.kind = .semicolon →
      ((rules n).statement (statement s ++ t :: rest)).Answers s (t :: rest)

def RecoversAll (ss : List Node) : Prop :=
  ∀ n closer t rest, closer = .eof ∨ closer = .rightBrace → t.kind = closer →
    ((rules n).statements closer (statements ss ++ t :: rest)).Answers ss (t :: rest)

section Bodies

variable {ss : List Node} {e cond start stop : Node}

theorem recoversAll (h : ∀ s ∈ ss, RecoversStatement s) : RecoversAll ss := by
  intro n closer t rest hc ht
  induction ss generalizing n with
  | nil =>
      cases n with
      | zero => exact .inl rfl
      | succ n =>
          change ((rules n).statementsRule closer (t :: rest)).Answers _ _
          unfold Rules.statementsRule
          rw [bind_peek, if_pos (by simp [ht])]
          exact .done [] (t :: rest)
  | cons s ss ih =>
      obtain ⟨⟨u, us, hu, heof, hbrace, hsep⟩, hread⟩ := h s (by simp)
      have hclose : u.kind ≠ closer := by rcases hc with rfl | rfl <;> assumption
      simp only [statements, List.append_assoc, List.cons_append]
      cases n with
      | zero => exact .inl rfl
      | succ n =>
          have hs := hread n (mark .semicolon ";") (statements ss ++ t :: rest) rfl
          change ((rules n).statementsRule closer _).Answers _ _
          unfold Rules.statementsRule
          rw [hu, List.cons_append] at hs ⊢
          rw [bind_peek, if_neg (by simp [heof, hclose]), hsep, if_neg Bool.false_ne_true]
          refine hs.bind (.bind ?_ (.done _ (t :: rest)))
          -- The semicolon is passed one level down.
          cases n with
          | zero => exact .inl rfl
          | succ n =>
              have hsemi : closer ≠ .semicolon := by rcases hc with rfl | rfl <;> decide
              change ((rules n).statementsRule closer _).Answers _ _
              unfold Rules.statementsRule
              rw [bind_peek, if_neg (by simp [mark, Ne.symm hsemi]), if_pos (by decide),
                bind_take]
              exact ih (fun s hs => h s (by simp [hs])) n

theorem block_answers (h : RecoversAll ss) (n : Nat) (rest : List Token) :
    ((rules n).block (body (some ss) ++ rest)).Answers ss rest := by
  simp only [body, List.append_assoc, List.cons_append, List.nil_append]
  refine .skipNewlines (by decide) ?_
  rw [bind_next, if_pos (by decide), bind_take]
  exact .bind ((h n .rightBrace _ rest (.inr rfl) rfl).orSkim _) (.expect rfl (.done ss rest))

theorem condition_answers (h : Recovers cond) (n : Nat) (rest : List Token) :
    ((rules n).condition (mark .leftParen "(" :: (grouped (expr cond) ++ mark .rightParen ")" ::
      rest))).Answers cond rest := by
  refine .expectOrSkim rfl (.bind ((assignment_grouped rest h rfl n).orSkim _) ?_)
  exact .expect rfl (.done cond rest)

theorem params_answers (names : List Bytes) (n : Nat) (rest : List Token) :
    ((rules n).params (separated (names.map fun x => [name x]) ++ mark .rightParen ")" ::
      rest)).Answers names (mark .rightParen ")" :: rest) := by
  unfold Rules.params
  cases names with
  | nil =>
      refine .skipNewlines (by decide) ?_
      rw [bind_next, if_pos (by decide)]
      exact .done [] _
  | cons x names =>
      have hnames := names_answers (List.cons_ne_nil x names) n rest
      have hfront : ∃ left, separated ((x :: names).map fun x => [name x]) ++
          mark .rightParen ")" :: rest = name x :: left := by
        cases names <;> simp [separated]
      obtain ⟨left, hleft⟩ := hfront
      rw [hleft] at hnames ⊢
      refine .skipNewlines (by simp [name, mark]) ?_
      rw [bind_next, if_neg (by simp [name, mark])]
      exact hnames

/-- What an iteration runs over is read back as a tree that splits into its start and stop. -/
theorem range_answers (hs : isExpr start = true ∨ start.isGap = true ∧ stop.isRange = false)
    (he : isExpr stop = true) (n : Nat) (rest : List Token) :
    ∃ tree, splitRange tree = (start, stop) ∧
      ((rules n).assignment (range start stop ++ mark .rightParen ")" :: rest)).Answers tree
        (mark .rightParen ")" :: rest) := by
  rcases hs with hs | ⟨hgap, hr⟩
  · refine ⟨.binary ":" start stop, by simp [splitRange], ?_⟩
    rw [range, isGap_of_isExpr hs, if_neg Bool.false_ne_true]
    exact (recovers_binary ":" (recovers_expr start hs) (recovers_expr stop he)).2 n _ rest rfl
  · refine ⟨stop, ?_, ?_⟩
    · rw [eq_gap_of_isGap hgap]
      unfold splitRange
      split
      · rename_i op left right
        simp only [isRange, decide_eq_false_iff_not] at hr
        rw [if_neg hr]
      · rfl
    · rw [range, hgap, if_pos rfl]
      exact assignment_grouped rest (recovers_expr stop he) rfl n

end Bodies

section Statements

variable {ss : List Node} {e cond start stop : Node}

theorem startsDeclaration_of_ne {s : Token} (h : s.kind ≠ .ident) (ts : List Token) :
    startsDeclaration (s :: ts) = false := by
  rcases ts with _ | ⟨a, _ | ⟨b, ts⟩⟩ <;> simp [startsDeclaration, h]

/-- An expression in parentheses is the statement the expression makes. -/
theorem recoversStatement_expr {s : Node} (he : Recovers e) (htoks : statement s = grouped (expr e))
    (hs : asStatement e = s) : RecoversStatement s := by
  refine ⟨⟨mark .leftParen "(", _, htoks, by decide, by decide, rfl⟩, fun n t rest ht => ?_⟩
  rw [htoks]
  cases n with
  | zero => exact .inl rfl
  | succ n =>
      change ((rules n).statementRule (mark .leftParen "(" :: _)).Answers _ _
      rw [Rules.statementRule_cons, if_neg (by decide), if_neg (by decide), if_neg (by decide),
        if_neg (by decide), startsDeclaration_of_ne (by decide), if_neg Bool.false_ne_true,
        Rules.exprRule_eq]
      refine .bind (assignment_grouped rest he (by rw [ht]; rfl) n) ?_
      rw [hs]
      exact .done s (t :: rest)

theorem recoversStatement_if (hc : Recovers cond) (h : RecoversAll ss) {no : Option (List Node)}
    (hno : ∀ ss ∈ no, RecoversAll ss) : RecoversStatement (.ifElse cond (some ss) no) := by
  refine ⟨⟨mark .kwIf "if", _, by simp [statement]; rfl, by decide, by decide, rfl⟩,
    fun n t rest ht => ?_⟩
  cases n with
  | zero => exact .inl rfl
  | succ n =>
      simp only [statement, List.append_assoc, List.cons_append]
      change ((rules n).statementRule (mark .kwIf "if" :: _)).Answers _ _
      rw [Rules.statementRule_cons, if_pos (by decide)]
      unfold Rules.ifRule
      rw [bind_take]
      refine .bind (condition_answers hc n _) (.bind (block_answers h n _) ?_)
      rw [bind_ahead]
      cases no with
      | none =>
          have hnone : elseFollows (orElse none ++ t :: rest) = false := by
            simp [orElse, elseFollows, ht]
          rw [hnone, if_neg Bool.false_ne_true]
          exact .done _ (t :: rest)
      | some no =>
          have hsome : elseFollows (orElse (some no) ++ t :: rest) = true := by
            simp [orElse, elseFollows, mark]
          have htoks : orElse (some no) ++ t :: rest =
              mark .kwElse "else" :: (body (some no) ++ t :: rest) := by
            simp [orElse, body]
          rw [hsome, if_pos rfl, htoks]
          refine .skipNewlines (by decide) (.expect rfl ?_)
          exact .bind (block_answers (hno no rfl) n _) (.done _ (t :: rest))

theorem recoversStatement_while (hc : Recovers cond) (h : RecoversAll ss) :
    RecoversStatement (.whileLoop cond (some ss)) := by
  refine ⟨⟨mark .kwWhile "while", _, by simp [statement]; rfl, by decide, by decide, rfl⟩,
    fun n t rest _ => ?_⟩
  cases n with
  | zero => exact .inl rfl
  | succ n =>
      simp only [statement, List.append_assoc, List.cons_append]
      change ((rules n).statementRule (mark .kwWhile "while" :: _)).Answers _ _
      rw [Rules.statementRule_cons, if_neg (by decide), if_pos (by decide)]
      unfold Rules.whileRule
      rw [bind_take]
      exact .bind (condition_answers hc n _) (.bind (block_answers h n _) (.done _ (t :: rest)))

theorem recoversStatement_for (x : Bytes)
    (hs : isExpr start = true ∨ start.isGap = true ∧ stop.isRange = false)
    (he : isExpr stop = true) (h : RecoversAll ss) :
    RecoversStatement (.forLoop x start stop (some ss)) := by
  refine ⟨⟨mark .kwFor "for", _, by simp [statement]; rfl, by decide, by decide, rfl⟩,
    fun n t rest _ => ?_⟩
  cases n with
  | zero => exact .inl rfl
  | succ n =>
      simp only [statement, List.append_assoc, List.cons_append]
      change ((rules n).statementRule (mark .kwFor "for" :: _)).Answers _ _
      rw [Rules.statementRule_cons, if_neg (by decide), if_neg (by decide), if_pos (by decide)]
      obtain ⟨tree, htree, hread⟩ := range_answers hs he n (body (some ss) ++ t :: rest)
      unfold Rules.forRule
      rw [bind_take]
      refine .expectOrSkim rfl (.expectOrSkim rfl (.expectOrSkim rfl ?_))
      refine .bind (hread.orSkim _) (.expect rfl (.bind (block_answers h n _) ?_))
      rw [htree]
      exact .done _ (t :: rest)

theorem recoversStatement_ret (h : isExpr e = true ∨ e.isGap = true) :
    RecoversStatement (.ret e) := by
  refine ⟨⟨mark .kwReturn "return", _, by simp [statement]; rfl, by decide, by decide, rfl⟩,
    fun n t rest ht => ?_⟩
  cases n with
  | zero => exact .inl rfl
  | succ n =>
      simp only [statement, List.cons_append]
      change ((rules n).statementRule (mark .kwReturn "return" :: _)).Answers _ _
      rw [Rules.statementRule_cons, if_neg (by decide), if_neg (by decide), if_neg (by decide),
        if_pos (by decide)]
      unfold Rules.returnRule
      rw [bind_take]
      rcases h with h | h
      · rw [isGap_of_isExpr h, if_neg Bool.false_ne_true]
        change ((peek >>= _) (mark .leftParen "(" :: _)).Answers _ _
        rw [bind_peek, if_neg (by decide)]
        exact .bind (assignment_grouped rest (recovers_expr e h) (by rw [ht]; rfl) n)
          (.done _ (t :: rest))
      · rw [h, if_pos rfl, List.nil_append, bind_peek, if_pos (by simp [ht, Kind.isSeparator]),
          eq_gap_of_isGap h]
        exact .done _ (t :: rest)

def declarationTree (x : Bytes) (ps : List Bytes) (ss : List Node) : Node :=
  match splitOperator? x with
  | some (op, cls) => .operator op cls ps (some ss)
  | none => .function x ps (some ss)

theorem recoversStatement_declaration {s : Node} (x : Bytes) (ps : List Bytes) (h : RecoversAll ss)
    (htoks : statement s = name x :: mark .backArrow "<-" :: mark .kwFunction "function" ::
      params ps ++ body (some ss))
    (hs : declarationTree x ps ss = s) : RecoversStatement s := by
  have hname : (name x).kind = .ident := rfl
  refine ⟨⟨name x, _, htoks, by simp [hname], by simp [hname], rfl⟩, fun n t rest _ => ?_⟩
  cases n with
  | zero => exact .inl rfl
  | succ n =>
      rw [htoks]
      simp only [params, List.append_assoc, List.cons_append, List.nil_append]
      change ((rules n).statementRule (name x :: _)).Answers _ _
      rw [Rules.statementRule_cons, if_neg (by simp [hname]), if_neg (by simp [hname]),
        if_neg (by simp [hname]), if_neg (by simp [hname])]
      change (if true then (rules n).declarationRule _ else _).Answers _ _
      rw [if_pos rfl]
      unfold Rules.declarationRule
      rw [bind_take, bind_take, bind_take]
      refine .expectOrSkim rfl (.bind ((params_answers ps n _).orSkim _) (.expect rfl ?_))
      refine .bind (block_answers h n _) (.inr ?_)
      change (match splitOperator? x with
        | some (op, cls) => pure (.operator op cls ps (some ss))
        | none => pure (.function x ps (some ss)) : Parser Node) (t :: rest) = _
      rw [← hs, declarationTree]
      cases splitOperator? x <;> rfl

end Statements

mutual

theorem recovers_statement : ∀ s : Node, isStatement s = true → RecoversStatement s
  | .assign x value, h => by
      have he : isExpr (.assign x value) = true := by simpa only [isStatement] using h
      exact recoversStatement_expr (recovers_expr _ he) (by simp [statement]) rfl
  | .assignIndex target i value, h => by
      have he : isExpr (.assignIndex target i value) = true := by simpa only [isStatement] using h
      exact recoversStatement_expr (recovers_expr _ he) (by simp [statement]) rfl
  | .exprStmt e, h => by
      simp only [isStatement, Bool.and_eq_true, Bool.not_eq_true'] at h
      refine recoversStatement_expr (recovers_expr e h.1) (by simp [statement]) ?_
      unfold asStatement
      split <;> first | rfl | simp [isAssignment] at h
  | .ifElse cond (some yes) none, h => by
      simp only [isStatement, isBody, Bool.and_eq_true] at h
      exact recoversStatement_if (recovers_expr cond h.1.1)
        (recoversAll (recovers_statements yes h.1.2)) nofun
  | .ifElse cond (some yes) (some no), h => by
      simp only [isStatement, isBody, isElse, Bool.and_eq_true] at h
      have hno := recoversAll (recovers_statements no h.2)
      refine recoversStatement_if (recovers_expr cond h.1.1)
        (recoversAll (recovers_statements yes h.1.2)) ?_
      rintro ss ⟨⟩
      exact hno
  | .whileLoop cond (some ss), h => by
      simp only [isStatement, isBody, Bool.and_eq_true] at h
      exact recoversStatement_while (recovers_expr cond h.1)
        (recoversAll (recovers_statements ss h.2))
  | .forLoop x start stop (some ss), h => by
      simp only [isStatement, isBody, Bool.and_eq_true, Bool.or_eq_true, Bool.not_eq_true'] at h
      exact recoversStatement_for x h.1.1 h.1.2 (recoversAll (recovers_statements ss h.2))
  | .function x ps (some ss), h => by
      simp only [isStatement, isBody, Bool.and_eq_true, Option.isNone_iff_eq_none] at h
      exact recoversStatement_declaration x ps (recoversAll (recovers_statements ss h.2))
        (by simp [statement]) (by simp [declarationTree, h.1])
  | .operator op cls ps (some ss), h => by
      simp only [isStatement, isBody, Bool.and_eq_true, decide_eq_true_eq, Bool.not_eq_true',
        List.contains_eq_mem, decide_eq_false_iff_not] at h
      obtain ⟨⟨⟨⟨hop, hcls⟩, hop'⟩, hcls'⟩, hss⟩ := h
      have hsplit := splitOperator?_eq_some_iff.mpr ⟨rfl, hop, hcls, hop', hcls'⟩
      exact recoversStatement_declaration (0x60 :: (op ++ 0x2e :: cls ++ [0x60])) ps
        (recoversAll (recovers_statements ss hss)) (by simp [statement])
        (by rw [declarationTree, hsplit])
  | .ret value, h => recoversStatement_ret (by simpa [isStatement] using h)
  | .ifElse _ none _, h | .whileLoop _ none, h | .forLoop _ _ _ none, h | .function _ _ none, h
  | .operator _ _ _ none, h | .gap, h | .program _, h | .block _, h | .call .., h | .named .., h
  | .binary .., h | .unary .., h | .var _, h | .int _, h | .float _, h | .string _, h | .bool _, h
  | .index .., h | .field .., h | .predicate .., h => by
      simp [isStatement, isBody] at h

theorem recovers_statements : ∀ ss : List Node, areStatements ss = true →
    ∀ s ∈ ss, RecoversStatement s
  | [], _ => by simp
  | s :: ss, h => by
      simp only [areStatements, Bool.and_eq_true] at h
      have hs := recovers_statement s h.1
      have hss := recovers_statements ss h.2
      intro u hu
      rcases List.mem_cons.mp hu with rfl | hu
      · exact hs
      · exact hss u hu

end

end RToJulia.Grammar

namespace RToJulia

open Grammar

theorem parse_canonical {ss : List Node} (h : Node.areStatements ss = true) :
    parse (Canonical.program ss) = .ok ss := by
  have hread := recoversAll (recovers_statements ss h) (depthFor (Canonical.program ss).length)
    .eof (Canonical.mark .eof []) [] (.inl rfl) rfl
  rcases hread with hread | hread
  · -- The depth of a program is enough for its tokens.
    have hhalt : parse (Canonical.program ss) = .error (.halt .depth) := by
      unfold parse
      rw [Canonical.program] at hread ⊢
      rw [hread]
    exact (parse_ne_halt (Canonical.program_readable ss) .depth hhalt).elim
  · unfold parse
    rw [Canonical.program] at hread ⊢
    rw [hread]

/-- The programs that can be read from lists that end with `eof` and have typed literals are
exactly the well-formed ones, and each of them is read from its canonical tokens. -/
theorem parse_image (ss : List Node) :
    ((∃ front last, last.kind = Kind.eof ∧ (∀ t ∈ front ++ [last], isTyped t = true) ∧
        parse (front ++ [last]) = .ok ss) ↔ Node.areStatements ss = true) ∧
      (parse (Canonical.program ss) = .ok ss ↔ Node.areStatements ss = true) := by
  refine ⟨⟨?_, fun h => ?_⟩, parse_wellFormed, parse_canonical⟩
  · rintro ⟨front, last, -, -, h⟩
    exact parse_wellFormed h
  · exact ⟨Canonical.statements ss, Canonical.mark .eof [], rfl,
      (Canonical.program_readable ss).typed, parse_canonical h⟩

end RToJulia
