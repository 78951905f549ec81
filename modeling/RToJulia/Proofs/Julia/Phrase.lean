import RToJulia.Proofs.Julia.Grouping
import RToJulia.Proofs.Tree.Occurs

/-! # The texts of expressions

A set of texts that has the fixed texts of the writer and is closed under joining has the
text of every expression whose labels have their texts in the set. The text of an expression
is never empty, and nothing in it depends on the indentation.
-/

namespace RToJulia.Julia

open Text Writer Argument Node

/-- A byte of the fixed texts: a printed one, but no quote. -/
def isInk (b : UInt8) : Bool :=
  0x20 ≤ b && b < 0x7f && b != 0x22

def opens (t : Bytes) : Bool :=
  t.all isInk && t.head?.any (· != 0x20)

/-- A set of texts that has all that a writer puts together from texts in it. -/
structure Composes (T : Bytes → Prop) : Prop where
  ink : ∀ {t : Bytes}, t.all isInk = true → T t
  append : ∀ {s t : Bytes}, T s → T t → T (s ++ t)
  record : ∀ cls : Bytes, T (recordName cls)
  symbol : ∀ {x : Bytes}, isIdentifier x = true → T x
  /-- The key of an element without a name is its position. -/
  position : ∀ n : Nat, T (stringLiteral (decimal n))
  /-- The short form of a method leaves out the `return`. -/
  unreturn : ∀ {t : Bytes}, T t → T (dropLead "return " t)

/-- A text of the set that is not empty; `lead` can bar bytes from its front. -/
structure Phrase (T : Bytes → Prop) (lead : UInt8 → Prop) (t : Bytes) : Prop where
  text : T t
  front : ∃ b s, t = b :: s ∧ lead b

/-- The labels of a node, as they are written, are phrases where they stand in front, and texts
of the set elsewhere. -/
def Fit (T : Bytes → Prop) (lead : UInt8 → Prop) : Node → Prop
  | .assign x _ | .var x | .forLoop x _ _ _ => Phrase T lead (unquote x)
  | .function x params _ => T (unquote x) ∧ ∀ p ∈ params, T p
  | .operator op cls params _ => T op ∧ T cls ∧ ∀ p ∈ params, T p
  | .call f _ => Phrase T lead f
  | .named x _ => T x ∧ T (stringLiteral x)
  | .binary op _ _ | .unary op _ => T op
  | .int ds => Phrase T lead ds
  | .float v => Phrase T lead (floatLiteral v)
  | .string s | .field _ s => T (stringLiteral s)
  | _ => True

def AllFit (T : Bytes → Prop) (lead : UInt8 → Prop) (root : Node) : Prop :=
  ∀ n, Occurs root n → Fit T lead n

structure Argument.Phrased (T : Bytes → Prop) (lead : UInt8 → Prop) (a : Argument) : Prop where
  write : Writes (Phrase T lead) False a.write
  key : ∀ x, a.name = some x → T x ∧ T (stringLiteral x)

section

variable {T : Bytes → Prop} {lead : UInt8 → Prop}

theorem occurs_of_child {root c n : Node} (hc : c ∈ root.children) (h : Occurs c n) :
    Occurs root n := by
  induction h with
  | root => exact .child .root hc
  | child _ hmem ih => exact .child ih hmem

theorem AllFit.child {n c : Node} (h : AllFit T lead n) (hc : c ∈ n.children) : AllFit T lead c :=
  fun m hm => h m (occurs_of_child hc hm)

theorem AllFit.label {n : Node} (h : AllFit T lead n) : Fit T lead n :=
  h n .root

theorem Phrase.ne_nil {t : Bytes} (h : Phrase T lead t) : t ≠ [] := by
  obtain ⟨b, s, rfl, -⟩ := h.front
  exact List.cons_ne_nil b s

variable (hT : Composes T)

include hT

theorem Phrase.append {s t : Bytes} (hs : Phrase T lead s) (ht : T t) : Phrase T lead (s ++ t) := by
  obtain ⟨b, s', rfl, hb⟩ := hs.front
  exact ⟨hT.append hs.text ht, b, s' ++ t, rfl, hb⟩

theorem commaList_text {parts : List Bytes} (h : ∀ p ∈ parts, T p) : T (commaList parts) := by
  induction parts with
  | nil => exact hT.ink rfl
  | cons p parts ih =>
      have hp := h p (by simp)
      have hrest := ih fun q hq => h q (by simp [hq])
      cases parts with
      | nil => simpa [commaList, List.intercalate] using hp
      | cons q parts =>
          have htext : commaList (p :: q :: parts) = p ++ (utf8 ", " ++ commaList (q :: parts)) := by
            simp [commaList, List.intercalate]
          rw [htext]
          exact hT.append hp (hT.append (hT.ink (by decide)) hrest)

variable (hlead : ∀ b, b ≠ 0x20 → lead b)

include hlead

theorem phrase_of_opens {t : Bytes} (h : opens t = true) : Phrase T lead t := by
  simp only [opens, Bool.and_eq_true] at h
  refine ⟨hT.ink h.1, ?_⟩
  cases t with
  | nil => simp at h
  | cons b s => exact ⟨b, s, rfl, hlead b (by simpa using h.2)⟩

/-- A text between fixed texts. -/
theorem phrase_enclosed {s t u : Bytes} (hs : opens s = true) (ht : T t)
    (hu : u.all isInk = true) : Phrase T lead (s ++ t ++ u) :=
  ((phrase_of_opens hT hlead hs).append hT ht).append hT (hT.ink hu)

omit hT in
/-- A string literal begins with its quote. -/
theorem phrase_stringLiteral {s : Bytes} (h : T (stringLiteral s)) :
    Phrase T lead (stringLiteral s) :=
  ⟨h, 0x22, stringBody s ++ [0x22], rfl, hlead _ (by decide)⟩

end

/-! ## Calls -/

section Calls

variable {T : Bytes → Prop} {lead : UInt8 → Prop} {args : List Argument} {o : Options}
  (hT : Composes T) (hlead : ∀ b, b ≠ 0x20 → lead b) (h : ∀ a ∈ args, a.Phrased T lead)

include h

theorem writeAll_texts : Writes (fun ts => ∀ t ∈ ts, T t) False (writeAll args) :=
  .mapM fun a ha => (h a ha).write.mono (fun _ => Phrase.text) id

theorem writePositional_texts :
    Writes (fun ts => ∀ t ∈ ts, T t) False (writeAll (positional args)) :=
  .mapM fun a ha => (h a (List.mem_filter.mp ha).1).write.mono (fun _ => Phrase.text) id

include hT

theorem writeNamed_texts {key : Bytes → Bytes}
    (hkey : ∀ x, T x → T (stringLiteral x) → T (key x)) :
    Writes (fun ts => ∀ t ∈ ts, T t) False (writeNamed args key) := by
  refine .mapM fun (x, a) hxa => ?_
  obtain ⟨b, hb, hx⟩ := List.mem_filterMap.mp hxa
  obtain ⟨y, hy, hyx⟩ := Option.map_eq_some_iff.mp hx
  cases hyx
  obtain ⟨hname, hlit⟩ := (h a hb).key x hy
  exact .bind (h a hb).write fun t ht => .pure (hT.append (hkey x hname hlit) ht.text)

theorem writeOptional_text {a? : Option Argument} (ha : ∀ a ∈ a?, a ∈ args) :
    Writes T False (writeOptional a?) := by
  cases a? with
  | none => exact .pure (hT.ink rfl)
  | some a => exact (h a (ha a rfl)).write.mono (fun _ => Phrase.text) id

theorem plainCall_phrase {f : Bytes} (hf : Phrase T lead f) :
    Writes (Phrase T lead) False (plainCall f args) := by
  have hclose : T (utf8 ")") := hT.ink (by decide)
  refine .bind (.useFunction f) fun _ _ => ?_
  refine .bind (writePositional_texts h) fun pos hpos => ?_
  refine .bind (writeNamed_texts hT h fun x hx _ => hT.append hx (hT.ink (by decide)))
    fun kws hkws => ?_
  have hpos := commaList_text hT hpos
  have hkws := commaList_text hT hkws
  split
  · exact .pure (((hf.append hT (hT.ink (by decide))).append hT hpos).append hT hclose)
  split
  · exact .pure (((hf.append hT (hT.ink (by decide))).append hT hkws).append hT hclose)
  · exact .pure (((((hf.append hT (hT.ink (by decide))).append hT hpos).append hT
      (hT.ink (by decide))).append hT hkws).append hT hclose)

include hlead

theorem sequenceCall_phrase : Writes (Phrase T lead) False (sequenceCall args) := by
  refine .bind (writeAll_texts h) fun ts hts => .pure ?_
  exact phrase_enclosed hT hlead (by decide) (commaList_text hT hts) (by decide)

theorem mappingCall_phrase : Writes (Phrase T lead) False (mappingCall o args) := by
  have harrow : T (utf8 " => ") := hT.ink (by decide)
  refine .bind (writeNamed_texts hT h fun x _ hx => hT.append hx harrow) fun keyed hkeyed => ?_
  have hdict : ∀ entries : List Bytes, (∀ t ∈ entries, T t) →
      Phrase T lead ("Dict(" ++ commaList entries ++ ")") := fun entries hentries =>
    phrase_enclosed hT hlead (by decide) (commaList_text hT hentries) (by decide)
  dsimp only
  split
  · refine .bind (writePositional_texts h) fun values hvalues => .pure (hdict _ ?_)
    intro t ht
    rcases List.mem_append.mp ht with ht | ht
    · exact hkeyed t ht
    · obtain ⟨i, hi, rfl⟩ := List.mem_mapIdx.mp ht
      exact hT.append (hT.append (hT.position (i + 1)) harrow) (hvalues _ (List.getElem_mem hi))
  · exact .pure (hdict _ (by simpa using hkeyed))

theorem matrixCall_phrase : Writes (Phrase T lead) False (matrixCall o args) := by
  have hplain : Writes (Phrase T lead) False (plainCall "matrix" args) :=
    plainCall_phrase hT h (phrase_of_opens hT hlead (by decide))
  refine .bind (writeOptional_text hT h fun _ => data_mem) fun data hdata => ?_
  refine .bind (writeOptional_text hT h fun _ => lookup?_mem) fun rows hrows => ?_
  refine .bind (writeOptional_text hT h fun _ => lookup?_mem) fun cols hcols => ?_
  have hcomma : T (utf8 ", ") := hT.ink (by decide)
  have hclose : T (utf8 ")") := hT.ink (by decide)
  have hreshape : Phrase T lead ("reshape(" ++ data) :=
    (phrase_of_opens hT hlead (by decide)).append hT hdata
  have hlength : T (utf8 ", div(length(") := hT.ink (by decide)
  have hnext : T (utf8 "), ") := hT.ink (by decide)
  dsimp only
  -- The cases are the arguments that are given: none, or data with rows, columns, both or neither.
  split
  · split
    · exact .pure (phrase_of_opens hT hlead (by decide))
    · exact hplain
  split
  · exact .pure ((((hreshape.append hT hcomma).append hT hrows).append hT hcomma).append hT
      hcols |>.append hT hclose)
  split
  · exact .pure ((((((hreshape.append hT hcomma).append hT hrows).append hT hlength).append hT
      hdata).append hT hnext).append hT hrows |>.append hT (hT.ink (by decide)))
  split
  · exact .pure ((((((hreshape.append hT hlength).append hT hdata).append hT hnext).append hT
      hcols).append hT hnext).append hT hcols |>.append hT hclose)
  split
  · exact .pure (((hreshape.append hT (hT.ink (by decide))).append hT hdata).append hT
      (hT.ink (by decide)))
  · exact hplain

theorem tableCall_phrase : Writes (Phrase T lead) False (tableCall args) := by
  refine .bind (writeNamed_texts hT h fun x hx _ => hT.append hx (hT.ink (by decide)))
    fun columns hcolumns => ?_
  refine .bind (writePositional_texts h) fun others hothers => ?_
  refine .bind (.useFunction _) fun _ _ => .pure ?_
  have hall : ∀ t ∈ columns ++ others, T t := by
    intro t ht
    rcases List.mem_append.mp ht with ht | ht
    · exact hcolumns t ht
    · exact hothers t ht
  exact phrase_enclosed hT hlead (by decide) (commaList_text hT hall) (by decide)

theorem printCall_phrase : Writes (Phrase T lead) False (printCall args) := by
  refine .bind (writePositional_texts h) fun ts hts => .pure ?_
  exact phrase_enclosed hT hlead (by decide) (commaList_text hT hts) (by decide)

theorem existsCall_phrase : Writes (Phrase T lead) False (existsCall args) := by
  have hsymbol : ∀ a ∈ args, Writes (Phrase T lead) False
      (do return "isdefined(Main, Symbol(" ++ (← a.write) ++ "))" : Writer Bytes) := by
    intro a ha
    refine .bind (h a ha).write fun t ht => .pure ?_
    exact phrase_enclosed hT hlead (by decide) ht.text (by decide)
  unfold existsCall
  split
  · exact plainCall_phrase hT h (phrase_of_opens hT hlead (by decide))
  · rename_i a rest hpos
    have ha : a ∈ args := (List.mem_filter.mp (hpos ▸ List.mem_cons_self : a ∈ positional args)).1
    split
    · split
      · rename_i hx
        exact .pure (phrase_enclosed hT hlead (by decide) (hT.symbol hx) (by decide))
      · exact hsymbol a ha
    · exact hsymbol a ha

/-- A call is a phrase whatever rule writes it. -/
theorem writeCall_phrase {f : Bytes} (hf : Phrase T lead f) :
    Writes (Phrase T lead) False (writeCall o f args) := by
  have hrenamed : ∀ {f'}, renamed? f = some f' → opens f' = true := by
    intro f' hr
    unfold renamed? at hr
    repeat' split at hr
    all_goals cases hr
    all_goals decide
  unfold writeCall
  split
  · exact sequenceCall_phrase hT hlead h
  split
  · exact mappingCall_phrase hT hlead h
  split
  · exact matrixCall_phrase hT hlead h
  split
  · exact printCall_phrase hT hlead h
  split
  · exact existsCall_phrase hT hlead h
  cases hr : renamed? f with
  | some f' => exact plainCall_phrase hT h (phrase_of_opens hT hlead (hrenamed hr))
  | none =>
      dsimp only
      split
      · exact tableCall_phrase hT hlead h
      · exact plainCall_phrase hT h hf

end Calls

/-! ## Expressions -/

section Forms

variable {T : Bytes → Prop} {lead : UInt8 → Prop} {target index value : Node} {o : Options}
  (hT : Composes T) (hlead : ∀ b, b ≠ 0x20 → lead b)

include hT

theorem elementText_phrase {t i v : Bytes} (ht : Phrase T lead t) (hi : T i) (hv : T v) :
    Phrase T lead (elementText o target index t i v) := by
  have hset : ∀ {s}, Phrase T lead s → Phrase T lead (s ++ "[" ++ i ++ "] = " ++ v) := fun hs =>
    (((hs.append hT (hT.ink (by decide))).append hT hi).append hT (hT.ink (by decide))).append hT hv
  unfold elementText
  -- Whatever stands in front of the brackets begins with the target.
  split
  · exact hset ((((ht.append hT (hT.ink (by decide))).append hT ht.text).append hT
      (hT.ink (by decide))).append hT ht.text)
  split
  · exact hset ((ht.append hT (hT.ink (by decide))).append hT ht.text)
  · exact hset ht

theorem writeAssign_phrase {x : Bytes} {plainValue : Writer Bytes} {args : List Argument}
    (hx : Phrase T lead (unquote x)) (hv : Writes (Phrase T lead) False plainValue)
    (ha : ∀ a ∈ args, a.Phrased T lead) :
    Writes (Phrase T lead) False (writeAssign x value plainValue args) := by
  have hequal : Phrase T lead (unquote x ++ " = ") := hx.append hT (hT.ink (by decide))
  have hrecord : ∀ cls t, T t →
      Phrase T lead (unquote x ++ " = " ++ recordName cls ++ "(" ++ t ++ ")") := fun cls t ht =>
    (((hequal.append hT (hT.record cls)).append hT (hT.ink (by decide))).append hT ht).append hT
      (hT.ink (by decide))
  unfold writeAssign
  dsimp only
  split
  · rename_i cls _
    refine .bind (.useRecord _) fun _ _ => ?_
    split
    · rename_i a rest hpos
      have hmem : a ∈ args := (List.mem_filter.mp (hpos ▸ List.mem_cons_self : a ∈ positional args)).1
      exact .bind (ha a hmem).write fun t ht => .pure (hrecord cls t ht.text)
    · exact .pure (hrecord cls _ (hT.ink (by decide)))
  · exact .bind hv fun t ht => .pure (hequal.append hT ht.text)

theorem typeName_text (test : Predicate) : T (typeName test) := by
  cases test with
  | other n => exact hT.ink (by decide : (utf8 "Any").all isInk = true)
  | _ => exact hT.ink (by decide)

include hlead

theorem binaryText_phrase {op l r : Bytes} (hop : T op) (hl : Phrase T lead l)
    (hr : Phrase T lead r) : Phrase T lead (binaryText op l r) := by
  have hparens : ∀ op, T op → Phrase T lead ("(" ++ l ++ " " ++ op ++ " " ++ r ++ ")") := by
    intro op hop
    have hspace : T (utf8 " ") := hT.ink (by decide)
    have hleft : Phrase T lead ("(" ++ l) := (phrase_of_opens hT hlead (by decide)).append hT hl.text
    exact ((((hleft.append hT hspace).append hT hop).append hT hspace).append hT hr.text).append hT
      (hT.ink (by decide))
  unfold binaryText
  split
  · exact (hl.append hT (hT.ink (by decide))).append hT hr.text
  dsimp only
  split
  · exact hparens _ (hT.ink (by decide))
  split
  · exact hparens _ (hT.ink (by decide))
  · exact hparens op hop

end Forms

section Expressions

variable {T : Bytes → Prop} {lead : UInt8 → Prop} (o : Options)

mutual

/-- An expression with fitting labels is written as a phrase, whatever the level. -/
theorem write_phrase (hT : Composes T) (hlead : ∀ b, b ≠ 0x20 → lead b) :
    ∀ e : Node, isExpr e = true → AllFit T lead e → ∀ level,
    Writes (Phrase T lead) False (write o e level)
  | .assign x value, h, hf, level => by
      have he : isExpr value = true := by simpa only [isExpr] using h
      have hvalue : AllFit T lead value := hf.child (by simp [children])
      rw [write]
      exact .unlessRefused (writeAssign_phrase hT hf.label
        (write_phrase hT hlead value he hvalue level)
        (callArguments_phrased hT hlead value he hvalue level))
  | .assignIndex target i value, h, hf, level => by
      simp only [isExpr, Bool.and_eq_true] at h
      rw [write]
      refine .unlessRefused (.bind (write_phrase hT hlead target h.1.1
        (hf.child (by simp [children])) level) fun t ht => ?_)
      refine .bind (write_phrase hT hlead i h.1.2 (hf.child (by simp [children])) level)
        fun i hi => ?_
      refine .bind (write_phrase hT hlead value h.2 (hf.child (by simp [children])) level)
        fun v hv => ?_
      exact .pure (elementText_phrase hT ht hi.text hv.text)
  | .call f as, h, hf, level => by
      simp only [isExpr, Bool.and_eq_true] at h
      have hargs := arguments_phrased hT hlead as h.1 (fun a ha => hf.child ha) level
      rw [write]
      exact .unlessRefused (writeCall_phrase hT hlead hargs hf.label)
  | .binary op left right, h, hf, level => by
      simp only [isExpr, Bool.and_eq_true] at h
      rw [write]
      refine .unlessRefused (.bind (write_phrase hT hlead left h.1 (hf.child (by simp [children]))
        level) fun l hl => ?_)
      refine .bind (write_phrase hT hlead right h.2 (hf.child (by simp [children])) level)
        fun r hr => ?_
      exact .pure (binaryText_phrase hT hlead hf.label hl hr)
  | .unary op operand, h, hf, level => by
      have he : isExpr operand = true := by simpa only [isExpr] using h
      have hop : T op := hf.label
      rw [write]
      refine .unlessRefused (.bind (write_phrase hT hlead operand he
        (hf.child (by simp [children])) level) fun t ht => .pure ?_)
      exact (((phrase_of_opens hT hlead (by decide)).append hT hop).append hT ht.text).append hT
        (hT.ink (by decide))
  | .var x, _, hf, level => by
      rw [write]
      exact .unlessRefused (.pure hf.label)
  | .int digits, _, hf, level => by
      rw [write]
      exact .unlessRefused (.pure hf.label)
  | .float value, _, hf, level => by
      rw [write]
      exact .unlessRefused (.pure hf.label)
  | .string value, _, hf, level => by
      rw [write]
      exact .unlessRefused (.pure (phrase_stringLiteral hlead hf.label))
  | .bool value, _, _, level => by
      rw [write]
      refine .unlessRefused (.pure (phrase_of_opens hT hlead ?_))
      cases value <;> decide
  | .index target i, h, hf, level => by
      simp only [isExpr, Bool.and_eq_true] at h
      rw [write]
      refine .unlessRefused (.bind (write_phrase hT hlead target h.1
        (hf.child (by simp [children])) level) fun t ht => ?_)
      refine .bind (write_phrase hT hlead i h.2 (hf.child (by simp [children])) level)
        fun i hi => .pure ?_
      exact ((ht.append hT (hT.ink (by decide))).append hT hi.text).append hT (hT.ink (by decide))
  | .field target x, h, hf, level => by
      have he : isExpr target = true := by simpa only [isExpr] using h
      have hx : T (stringLiteral x) := hf.label
      rw [write]
      refine .unlessRefused (.bind (write_phrase hT hlead target he
        (hf.child (by simp [children])) level) fun t ht => .pure ?_)
      exact ((ht.append hT (hT.ink (by decide))).append hT hx).append hT (hT.ink (by decide))
  | .predicate test e, h, hf, level => by
      simp only [isExpr, Bool.and_eq_true] at h
      rw [write]
      refine .unlessRefused (.bind (write_phrase hT hlead e h.2
        (hf.child (by simp [children])) level) fun t ht => .pure ?_)
      exact ((((phrase_of_opens hT hlead (by decide)).append hT ht.text).append hT
        (hT.ink (by decide))).append hT (typeName_text hT test)).append hT (hT.ink (by decide))
  | .gap, h, _, _ | .program _, h, _, _ | .block _, h, _, _ | .exprStmt _, h, _, _
  | .ifElse .., h, _, _ | .whileLoop .., h, _, _ | .forLoop .., h, _, _ | .function .., h, _, _
  | .operator .., h, _, _ | .ret _, h, _, _ | .named .., h, _, _ => by
      simp [isExpr] at h

theorem namedArgument_phrased (hT : Composes T) (hlead : ∀ b, b ≠ 0x20 → lead b) :
    ∀ a : Node, isNamedExpr a = true → AllFit T lead a → ∀ level,
    (argument a (write o a level) (writeNamedValue o a level)).Phrased T lead
  | .named x value, h, hf, level => by
      have he : isExpr value = true := by simpa only [isNamedExpr] using h
      refine ⟨?_, ?_⟩
      · have hw := write_phrase hT hlead value he (hf.child (by simp [children])) level
        simpa only [argument, writeNamedValue] using hw
      · rintro y ⟨⟩
        exact hf.label
  | .gap, h, _, _ | .program _, h, _, _ | .block _, h, _, _ | .assign .., h, _, _
  | .assignIndex .., h, _, _ | .exprStmt _, h, _, _ | .ifElse .., h, _, _ | .whileLoop .., h, _, _
  | .forLoop .., h, _, _ | .function .., h, _, _ | .operator .., h, _, _ | .ret _, h, _, _
  | .call .., h, _, _ | .binary .., h, _, _ | .unary .., h, _, _ | .var _, h, _, _ | .int _, h, _, _
  | .float _, h, _, _ | .string _, h, _, _ | .bool _, h, _, _ | .index .., h, _, _
  | .field .., h, _, _ | .predicate .., h, _, _ => by
      simp [isNamedExpr] at h

theorem arguments_phrased (hT : Composes T) (hlead : ∀ b, b ≠ 0x20 → lead b) :
    ∀ as : List Node, areArgs as = true → (∀ a ∈ as, AllFit T lead a) → ∀ level,
    ∀ a ∈ arguments o as level, a.Phrased T lead
  | [], _, _, level => by simp [arguments]
  | a :: as, h, hf, level => by
      simp only [areArgs, Bool.and_eq_true, Bool.or_eq_true] at h
      have ha := hf a List.mem_cons_self
      have hexpr := fun he => write_phrase hT hlead a he ha level
      have hnamed := fun he => namedArgument_phrased hT hlead a he ha level
      have has := arguments_phrased hT hlead as h.2 (fun b hb => hf b (List.mem_cons_of_mem a hb)) level
      rw [arguments]
      intro b hb
      rcases List.mem_cons.mp hb with rfl | hb
      · rcases h.1 with he | he
        · rw [argument_positional (isNamed_of_isExpr he)]
          exact ⟨hexpr he, by simp⟩
        · exact hnamed he
      · exact has b hb

theorem callArguments_phrased (hT : Composes T) (hlead : ∀ b, b ≠ 0x20 → lead b) :
    ∀ e : Node, isExpr e = true → AllFit T lead e → ∀ level,
    ∀ a ∈ callArguments o e level, a.Phrased T lead
  | .call f as, h, hf, level => by
      simp only [isExpr, Bool.and_eq_true] at h
      rw [callArguments]
      exact arguments_phrased hT hlead as h.1 (fun a ha => hf.child ha) level
  | .gap, _, _, _ | .program _, _, _, _ | .block _, _, _, _ | .assign .., _, _, _
  | .assignIndex .., _, _, _ | .exprStmt _, _, _, _ | .ifElse .., _, _, _ | .whileLoop .., _, _, _
  | .forLoop .., _, _, _ | .function .., _, _, _ | .operator .., _, _, _ | .ret _, _, _, _
  | .named .., _, _, _ | .binary .., _, _, _ | .unary .., _, _, _ | .var _, _, _, _
  | .int _, _, _, _ | .float _, _, _, _ | .string _, _, _, _ | .bool _, _, _, _ | .index .., _, _, _
  | .field .., _, _, _ | .predicate .., _, _, _ => by
      simp [callArguments]

end

/-! ## Any indentation -/

mutual

/-- Neither the width of an indentation nor the level shows in an expression. -/
theorem write_unindented (width : Int) : ∀ e : Node, isExpr e = true → ∀ level,
    write { o with indentWidth := width } e level = write o e 0
  | .assign x value, h, level => by
      have he : isExpr value = true := by simpa only [isExpr] using h
      rw [write, write, write_unindented width value he level,
        callArguments_unindented width value he level]
  | .assignIndex target i value, h, level => by
      simp only [isExpr, Bool.and_eq_true] at h
      rw [write, write, write_unindented width target h.1.1 level,
        write_unindented width i h.1.2 level, write_unindented width value h.2 level]
      rfl
  | .call f as, h, level => by
      simp only [isExpr, Bool.and_eq_true] at h
      rw [write, write, arguments_unindented width as h.1 level]
      rfl
  | .binary op left right, h, level => by
      simp only [isExpr, Bool.and_eq_true] at h
      rw [write, write, write_unindented width left h.1 level, write_unindented width right h.2 level]
  | .unary op operand, h, level => by
      have he : isExpr operand = true := by simpa only [isExpr] using h
      rw [write, write, write_unindented width operand he level]
  | .var _, _, _ | .int _, _, _ | .float _, _, _ | .string _, _, _ | .bool _, _, _ => by
      rw [write, write]
  | .index target i, h, level => by
      simp only [isExpr, Bool.and_eq_true] at h
      rw [write, write, write_unindented width target h.1 level, write_unindented width i h.2 level]
  | .field target x, h, level => by
      have he : isExpr target = true := by simpa only [isExpr] using h
      rw [write, write, write_unindented width target he level]
  | .predicate test e, h, level => by
      simp only [isExpr, Bool.and_eq_true] at h
      rw [write, write, write_unindented width e h.2 level]
  | .gap, h, _ | .program _, h, _ | .block _, h, _ | .exprStmt _, h, _ | .ifElse .., h, _
  | .whileLoop .., h, _ | .forLoop .., h, _ | .function .., h, _ | .operator .., h, _
  | .ret _, h, _ | .named .., h, _ => by
      simp [isExpr] at h

theorem writeNamedValue_unindented (width : Int) : ∀ a : Node, isNamedExpr a = true → ∀ level,
    writeNamedValue { o with indentWidth := width } a level = writeNamedValue o a 0
  | .named x value, h, level => by
      have he : isExpr value = true := by simpa only [isNamedExpr] using h
      rw [writeNamedValue, writeNamedValue, write_unindented width value he level]
  | .gap, h, _ | .program _, h, _ | .block _, h, _ | .assign .., h, _ | .assignIndex .., h, _
  | .exprStmt _, h, _ | .ifElse .., h, _ | .whileLoop .., h, _ | .forLoop .., h, _
  | .function .., h, _ | .operator .., h, _ | .ret _, h, _ | .call .., h, _ | .binary .., h, _
  | .unary .., h, _ | .var _, h, _ | .int _, h, _ | .float _, h, _ | .string _, h, _
  | .bool _, h, _ | .index .., h, _ | .field .., h, _ | .predicate .., h, _ => by
      simp [isNamedExpr] at h

theorem arguments_unindented (width : Int) : ∀ as : List Node, areArgs as = true → ∀ level,
    arguments { o with indentWidth := width } as level = arguments o as 0
  | [], _, level => by rw [arguments, arguments]
  | a :: as, h, level => by
      simp only [areArgs, Bool.and_eq_true, Bool.or_eq_true] at h
      -- The recursive calls stand before the cases, where their argument is still a part of the list.
      have hexpr := fun he => write_unindented width a he level
      have hnamed := fun he => writeNamedValue_unindented width a he level
      rw [arguments, arguments, arguments_unindented width as h.2 level]
      rcases h.1 with he | he
      · rw [argument_positional (isNamed_of_isExpr he), argument_positional (isNamed_of_isExpr he),
          hexpr he]
      · rw [hnamed he]
        cases a <;> first | rfl | simp [isNamedExpr] at he

theorem callArguments_unindented (width : Int) : ∀ e : Node, isExpr e = true → ∀ level,
    callArguments { o with indentWidth := width } e level = callArguments o e 0
  | .call f as, h, level => by
      simp only [isExpr, Bool.and_eq_true] at h
      rw [callArguments, callArguments, arguments_unindented width as h.1 level]
  | .gap, _, _ | .program _, _, _ | .block _, _, _ | .assign .., _, _ | .assignIndex .., _, _
  | .exprStmt _, _, _ | .ifElse .., _, _ | .whileLoop .., _, _ | .forLoop .., _, _
  | .function .., _, _ | .operator .., _, _ | .ret _, _, _ | .named .., _, _ | .binary .., _, _
  | .unary .., _, _ | .var _, _, _ | .int _, _, _ | .float _, _, _ | .string _, _, _
  | .bool _, _, _ | .index .., _, _ | .field .., _, _ | .predicate .., _, _ => by
      simp [callArguments]

end

end Expressions

end RToJulia.Julia
