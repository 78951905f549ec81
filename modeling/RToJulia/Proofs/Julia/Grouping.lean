import RToJulia.Proofs.Julia.Delimited
import RToJulia.Proofs.Julia.Writer
import RToJulia.Proofs.Token.Lexed
import RToJulia.Proofs.Tree.Labels
import RToJulia.Proofs.Tree.WellFormed

/-! # Grouping

An expression is written as delimited text, except for ranges, assignments, variables
that are no names without their backticks, and what is indexed in one of these: their
text is balanced but stands bare. A variable and an assigned name lose their backticks,
so all of this holds only where what stood between them is balanced itself.
-/

namespace RToJulia.Julia

open Text Writer Argument

variable {name : Bytes → Prop}

def standsAsName (t : Bytes) : Bool :=
  isPlainName t || isIdentifier t

theorem standsAsName_of_plain {t : Bytes} (h : isPlainName t = true) : standsAsName t = true := by
  simp [standsAsName, h]

/-! ## Calls -/

structure Argument.Sound (name : Bytes → Prop) (a : Argument) : Prop where
  write : Writes (Balanced name) False a.write
  key : ∀ x, a.name = some x → name x ∧ Delimited name (stringLiteral x)

/-- The names that functions are renamed to are plain. -/
theorem renamed?_plain {f f' : Bytes} (hf : renamed? f = some f') : isPlainName f' = true := by
  unfold renamed? at hf
  repeat' split at hf
  all_goals cases hf
  all_goals decide

theorem lookup?_mem {args : List Argument} {x : Bytes} {a : Argument} (h : a ∈ lookup? args x) :
    a ∈ args :=
  List.mem_of_find?_eq_some h

theorem data_mem {args : List Argument} {a : Argument}
    (h : a ∈ ((positional args).head? <|> lookup? args "data")) : a ∈ args := by
  cases hp : (positional args).head? with
  | none =>
      rw [hp] at h
      exact lookup?_mem h
  | some b =>
      rw [hp] at h
      cases h
      exact (List.mem_filter.mp (List.mem_of_mem_head? hp)).1

section Calls

variable {args : List Argument} {o : Options} (named : ∀ t, standsAsName t = true → name t)
  (h : ∀ a ∈ args, a.Sound name)

include h

theorem writeAll_writes : Writes (fun ts => ∀ t ∈ ts, Balanced name t) False (writeAll args) :=
  .mapM fun a ha => (h a ha).write

theorem writePositional_writes :
    Writes (fun ts => ∀ t ∈ ts, Balanced name t) False (writeAll (positional args)) :=
  .mapM fun a ha => (h a (List.mem_filter.mp ha).1).write

theorem writeNamed_writes {key : Bytes → Bytes}
    (hkey : ∀ x, name x → Delimited name (stringLiteral x) → Balanced name (key x)) :
    Writes (fun ts => ∀ t ∈ ts, Balanced name t) False (writeNamed args key) := by
  refine .mapM fun (x, a) hxa => ?_
  obtain ⟨b, hb, hx⟩ := List.mem_filterMap.mp hxa
  obtain ⟨y, hy, hyx⟩ := Option.map_eq_some_iff.mp hx
  cases hyx
  obtain ⟨hname, hlit⟩ := (h a hb).key x hy
  exact .bind (h a hb).write fun t ht => .pure (.append (hkey x hname hlit) ht)

theorem writeOptional_writes {a? : Option Argument} (ha : ∀ a ∈ a?, a ∈ args) :
    Writes (Balanced name) False (writeOptional a?) := by
  cases a? with
  | none => exact .pure .nil
  | some a => exact (h a (ha a rfl)).write

theorem plainCall_writes {f : Bytes} (hf : name f) :
    Writes (Delimited name) False (plainCall f args) := by
  refine .bind (.useFunction f) fun _ _ => ?_
  refine .bind (writePositional_writes h) fun pos hpos => ?_
  refine .bind (writeNamed_writes h fun x hx _ => .append (.name hx) (balanced_plain (by decide)))
    fun kws hkws => ?_
  have hpos := balanced_commaList hpos
  have hkws := balanced_commaList hkws
  split
  · refine .pure ?_
    simpa only [List.append_assoc] using Delimited.call hf hpos
  split
  · refine .pure ?_
    have hinner := Balanced.append (balanced_plain (by decide : (utf8 "; ").all isPlainByte = true)) hkws
    simpa [show utf8 "(; " = utf8 "(" ++ utf8 "; " by decide] using Delimited.call hf hinner
  · refine .pure ?_
    have hinner := hpos.append
      (.append (balanced_plain (by decide : (utf8 "; ").all isPlainByte = true)) hkws)
    simpa only [List.append_assoc] using Delimited.call hf hinner

theorem sequenceCall_writes : Writes (Delimited name) False (sequenceCall args) := by
  refine .bind (writeAll_writes h) fun ts hts => .pure ?_
  exact .brackets (balanced_commaList hts)

include named

theorem mappingCall_writes : Writes (Delimited name) False (mappingCall o args) := by
  refine .bind (writeNamed_writes h fun x _ hx => .append hx.balanced (balanced_plain (by decide)))
    fun keyed hkeyed => ?_
  have hdict : ∀ entries : List Bytes, (∀ t ∈ entries, Balanced name t) →
      Delimited name ("Dict(" ++ commaList entries ++ ")") := by
    intro entries hentries
    have hcall := Delimited.call (named "Dict" (by decide)) (balanced_commaList hentries)
    simpa [show utf8 "Dict(" = utf8 "Dict" ++ utf8 "(" by decide] using hcall
  dsimp only
  split
  · refine .bind (writePositional_writes h) fun values hvalues => .pure (hdict _ ?_)
    intro t ht
    rcases List.mem_append.mp ht with ht | ht
    · exact hkeyed t ht
    · obtain ⟨i, hi, rfl⟩ := List.mem_mapIdx.mp ht
      have hkey : isWhole (decimal (i + 1)) = true := isWhole_of_digits (areDigits_decimal (i + 1))
      exact .append (.append (.literal (stringLiteral_isLiteral hkey)) (balanced_plain (by decide)))
        (hvalues _ (List.getElem_mem hi))
  · exact .pure (hdict _ (by simpa using hkeyed))

theorem matrixCall_writes : Writes (Delimited name) False (matrixCall o args) := by
  have hplain : Writes (Delimited name) False (plainCall "matrix" args) :=
    plainCall_writes h (named "matrix" (by decide))
  refine .bind (writeOptional_writes h fun _ => data_mem) fun data hdata => ?_
  refine .bind (writeOptional_writes h fun _ => lookup?_mem) fun rows hrows => ?_
  refine .bind (writeOptional_writes h fun _ => lookup?_mem) fun cols hcols => ?_
  have hcomma : Balanced name (utf8 ", ") := balanced_plain (by decide)
  have hreshape : ∀ {t}, Balanced name t → Delimited name ("reshape" ++ ("(" ++ t ++ ")")) :=
    fun ht => .call (named "reshape" (by decide)) ht
  have hlength : Balanced name ("length" ++ ("(" ++ data ++ ")")) :=
    .append (balanced_plain (by decide)) (.parens hdata)
  have hdiv : ∀ {n}, Balanced name n →
      Balanced name ("div" ++ ("(" ++ ("length" ++ ("(" ++ data ++ ")") ++ (", " ++ n)) ++ ")")) :=
    fun hn => .append (balanced_plain (by decide)) (.parens (hlength.append (hcomma.append hn)))
  have hopen : utf8 "reshape(" = utf8 "reshape" ++ utf8 "(" := by decide
  have hsep : utf8 "), " = utf8 ")" ++ utf8 ", " := by decide
  have hnest : utf8 ", div(length(" = utf8 ", " ++ (utf8 "div" ++ (utf8 "(" ++ (utf8 "length" ++ utf8 "("))) := by
    decide
  dsimp only
  split
  · split
    · exact .pure (hreshape (.append (.brackets .nil) (balanced_plain
        (by decide : (utf8 ", 0, 0").all isPlainByte = true))))
    · exact hplain
  split
  · refine .pure ?_
    have ht := hreshape (hdata.append (hcomma.append (hrows.append (hcomma.append hcols))))
    simpa [hopen] using ht
  split
  · refine .pure ?_
    have ht := hreshape (hdata.append (hcomma.append (hrows.append (hcomma.append (hdiv hrows)))))
    simpa [hopen, hsep, hnest, show utf8 "))" = utf8 ")" ++ utf8 ")" by decide] using ht
  split
  · refine .pure ?_
    have ht := hreshape (hdata.append (hcomma.append ((hdiv hcols).append (hcomma.append hcols))))
    simpa [hopen, hsep, hnest] using ht
  split
  · refine .pure ?_
    have hone : Balanced name (utf8 ", 1") := balanced_plain (by decide)
    have ht := hreshape (hdata.append (hcomma.append (hlength.append hone)))
    simpa [hopen, show utf8 ", length(" = utf8 ", " ++ (utf8 "length" ++ utf8 "(") by decide,
      show utf8 "), 1)" = utf8 ")" ++ (utf8 ", 1" ++ utf8 ")") by decide] using ht
  · exact hplain

theorem tableCall_writes : Writes (Delimited name) False (tableCall args) := by
  refine .bind (writeNamed_writes h fun x hx _ => .append (.name hx) (balanced_plain (by decide)))
    fun columns hcolumns => ?_
  refine .bind (writePositional_writes h) fun others hothers => ?_
  refine .bind (.useFunction _) fun _ _ => .pure ?_
  have hall : ∀ t ∈ columns ++ others, Balanced name t := by
    intro t ht
    rcases List.mem_append.mp ht with ht | ht
    · exact hcolumns t ht
    · exact hothers t ht
  have hcall := Delimited.call (named "DataFrame" (by decide)) (balanced_commaList hall)
  simpa [show utf8 "DataFrame(" = utf8 "DataFrame" ++ utf8 "(" by decide] using hcall

theorem printCall_writes : Writes (Delimited name) False (printCall args) := by
  refine .bind (writePositional_writes h) fun ts hts => .pure ?_
  have hcall := Delimited.call (named "println" (by decide)) (balanced_commaList hts)
  simpa [show utf8 "println(" = utf8 "println" ++ utf8 "(" by decide] using hcall

theorem existsCall_writes : Writes (Delimited name) False (existsCall args) := by
  have hmain : Balanced name (utf8 "Main, ") := balanced_plain (by decide)
  have hdefined : ∀ {t}, Balanced name t →
      Delimited name ("isdefined" ++ ("(" ++ ("Main, " ++ t) ++ ")")) :=
    fun ht => .call (named "isdefined" (by decide)) (hmain.append ht)
  have hsymbol : ∀ a ∈ args, Writes (Delimited name) False
      (do return "isdefined(Main, Symbol(" ++ (← a.write) ++ "))" : Writer Bytes) := by
    intro a ha
    refine .bind (h a ha).write fun t ht => .pure ?_
    have hcall := hdefined (.append (balanced_plain
      (by decide : (utf8 "Symbol").all isPlainByte = true)) (.parens ht))
    simpa [show utf8 "isdefined(Main, Symbol(" = utf8 "isdefined" ++ (utf8 "(" ++ (utf8 "Main, " ++
      (utf8 "Symbol" ++ utf8 "("))) by decide, show utf8 "))" = utf8 ")" ++ utf8 ")" by decide] using hcall
  unfold existsCall
  split
  · exact plainCall_writes h (named "exists" (by decide))
  · rename_i a rest hpos
    have ha : a ∈ args := (List.mem_filter.mp (hpos ▸ List.mem_cons_self : a ∈ positional args)).1
    split
    · rename_i x _
      split
      · rename_i hx
        refine .pure ?_
        have hcall := hdefined (.append (balanced_plain
          (by decide : (utf8 ":").all isPlainByte = true)) (.name (named x (by simp [standsAsName, hx]))))
        simpa [show utf8 "isdefined(Main, :" = utf8 "isdefined" ++ (utf8 "(" ++ (utf8 "Main, " ++
          utf8 ":")) by decide] using hcall
      · exact hsymbol a ha
    · exact hsymbol a ha

/-- A call is delimited whatever rule writes it. -/
theorem writeCall_writes {f : Bytes} (hf : name f) :
    Writes (Delimited name) False (writeCall o f args) := by
  unfold writeCall
  split
  · exact sequenceCall_writes h
  split
  · exact mappingCall_writes named h
  split
  · exact matrixCall_writes named h
  split
  · exact printCall_writes named h
  split
  · exact existsCall_writes named h
  cases hr : renamed? f with
  | some f' => exact plainCall_writes h (named f' (standsAsName_of_plain (renamed?_plain hr)))
  | none =>
      dsimp only
      split
      · exact tableCall_writes named h
      · exact plainCall_writes h hf

end Calls

/-! ## Expressions -/

def texts (name : Bytes → Prop) : Labels where
  name x := name x ∧ Delimited name (stringLiteral x)
  operator op := Balanced name op
  sign op := Balanced name op
  digits ds := Delimited name ds
  real v := Delimited name (floatLiteral v)
  text s := Delimited name (stringLiteral s)

/-- An expression whose text stands bare: an assignment, a range, a variable that is no name
without its backticks, or an element of one of these. -/
def isBare : Node → Bool
  | .assign .. | .assignIndex .. => true
  | .binary op _ _ => op = ":"
  | .var x => !standsAsName (unquote x)
  | .index target _ | .field target _ => isBare target
  | _ => false

mutual

/-- The names in an expression that are written without their backticks: those of variables and
of assignments. -/
def unquotedNames : Node → List Bytes
  | .var x => [x]
  | .assign x value => x :: unquotedNames value
  | .assignIndex target i value => unquotedNames target ++ (unquotedNames i ++ unquotedNames value)
  | .call _ args => unquotedNamesAll args
  | .binary _ left right | .index left right => unquotedNames left ++ unquotedNames right
  | .named _ e | .unary _ e | .field e _ | .predicate _ e => unquotedNames e
  | _ => []

def unquotedNamesAll : List Node → List Bytes
  | [] => []
  | n :: ns => unquotedNames n ++ unquotedNamesAll ns

end

def Grouped (name : Bytes → Prop) (e : Node) (t : Bytes) : Prop :=
  if isBare e then Balanced name t else Delimited name t

theorem Grouped.balanced {e : Node} {t : Bytes} (h : Grouped name e t) : Balanced name t := by
  unfold Grouped at h
  split at h
  · exact h
  · exact h.balanced

section Forms

variable {target index value : Node} {o : Options}

theorem binaryText_grouped {op l r : Bytes} (hop : Balanced name op) (hl : Balanced name l)
    (hr : Balanced name r) (left right : Node) :
    Grouped name (.binary op left right) (binaryText op l r) := by
  have hspace : Balanced name (utf8 " ") := balanced_plain (by decide)
  by_cases hrange : op = ":"
  · have htext : Balanced name (l ++ ":" ++ r) := .append (.append hl (balanced_plain (by decide))) hr
    simpa [Grouped, isBare, binaryText, hrange] using htext
  · have hparens : ∀ op, Balanced name op → Delimited name ("(" ++ l ++ " " ++ op ++ " " ++ r ++ ")") := by
      intro op hop
      have ht := hl.append (hspace.append (hop.append (hspace.append hr)))
      simpa only [List.append_assoc] using Delimited.parens ht
    simp only [Grouped, isBare, hrange, decide_false, Bool.false_eq_true, if_false, binaryText]
    split
    · exact hparens _ (balanced_plain (by decide))
    split
    · exact hparens _ (balanced_plain (by decide))
    · exact hparens op hop

/-- An element of delimited text is delimited. -/
theorem index_grouped {t i : Bytes} (ht : Grouped name target t) (hi : Balanced name i)
    {e : Node} (he : isBare e = isBare target) : Grouped name e (t ++ "[" ++ i ++ "]") := by
  unfold Grouped at ht ⊢
  rw [he]
  split
  · rename_i hbare
    rw [if_pos hbare] at ht
    simpa only [List.append_assoc] using ht.append (.brackets hi)
  · rename_i hbare
    rw [if_neg hbare] at ht
    simpa only [List.append_assoc] using Delimited.index ht hi

theorem elementText_balanced {t i v : Bytes} (ht : Balanced name t) (hi : Balanced name i)
    (hv : Balanced name v) : Balanced name (elementText o target index t i v) := by
  have hequal : Balanced name (utf8 " = ") := balanced_plain (by decide)
  have hset : Balanced name (t ++ ("[" ++ i ++ "]") ++ (" = " ++ v)) :=
    .append (ht.append (.brackets hi)) (hequal.append hv)
  have hclose : utf8 "] = " = utf8 "]" ++ utf8 " = " := by decide
  unfold elementText
  split
  · have hkey : Balanced name ("string" ++ ("(" ++ utf8 "k" ++ ")")) :=
      .append (balanced_plain (by decide)) (.parens (balanced_plain (by decide)))
    have hpair : Balanced name (" => v for " ++ ("(" ++ utf8 "k, v" ++ ")")) :=
      .append (balanced_plain (by decide)) (.parens (balanced_plain (by decide)))
    have hitems : Balanced name (" in enumerate" ++ ("(" ++ t ++ ")")) :=
      .append (balanced_plain (by decide)) (.parens ht)
    have hdict : Balanced name (utf8 " = Dict") := balanced_plain (by decide)
    have hsep : Balanced name (utf8 "; ") := balanced_plain (by decide)
    have hall := ht.append ((hdict.append (.parens (hkey.append (hpair.append hitems)))).append
      (hsep.append hset))
    have hopen : utf8 " = Dict(string(k) => v for (k, v) in enumerate(" = utf8 " = Dict" ++
        (utf8 "(" ++ (utf8 "string" ++ (utf8 "(" ++ (utf8 "k" ++ (utf8 ")" ++ (utf8 " => v for " ++
        (utf8 "(" ++ (utf8 "k, v" ++ (utf8 ")" ++ (utf8 " in enumerate" ++ utf8 "(")))))))))) := by
      decide
    simpa [hclose, hopen, show utf8 ")); " = utf8 ")" ++ (utf8 ")" ++ utf8 "; ") by decide] using hall
  split
  · have hdict : Balanced name (utf8 " = Dict") := balanced_plain (by decide)
    have hsep : Balanced name (utf8 "; ") := balanced_plain (by decide)
    have hall := ht.append ((hdict.append (.parens .nil)).append (hsep.append hset))
    simpa [hclose, show utf8 " = Dict(); " = utf8 " = Dict" ++ (utf8 "(" ++ (utf8 ")" ++ utf8 "; ")) by
      decide] using hall
  · simpa [hclose] using hset

/-- A record construction writes its first positional argument; any other value is written as
it is. -/
theorem writeAssign_writes {x : Bytes} {plainValue : Writer Bytes} {args : List Argument}
    (hx : Balanced name (unquote x)) (hv : Writes (Balanced name) False plainValue)
    (ha : ∀ a ∈ args, a.Sound name) :
    Writes (Balanced name) False (writeAssign x value plainValue args) := by
  have hequal : Balanced name (utf8 " = ") := balanced_plain (by decide)
  have hrecord : ∀ cls t, Balanced name t →
      Balanced name (unquote x ++ " = " ++ recordName cls ++ "(" ++ t ++ ")") := by
    intro cls t ht
    have hall := hx.append (hequal.append ((Balanced.record cls).append (.parens ht)))
    simpa only [List.append_assoc] using hall
  unfold writeAssign
  dsimp only
  split
  · rename_i cls _
    refine .bind (.useRecord _) fun _ _ => ?_
    split
    · rename_i a rest hpos
      have hmem : a ∈ args := (List.mem_filter.mp (hpos ▸ List.mem_cons_self : a ∈ positional args)).1
      exact .bind (ha a hmem).write fun t ht => .pure (hrecord cls t ht)
    · exact .pure (hrecord cls _ (balanced_plain (by decide)))
  · exact .bind hv fun t ht => .pure (.append (hx.append hequal) ht)

theorem typeName_plain (test : Predicate) : (typeName test).all isPlainByte = true := by
  cases test with
  | other n => exact (by decide : (utf8 "Any").all isPlainByte = true)
  | _ => decide

end Forms

theorem argument_positional {a : Node} (h : a.isNamed = false) (whole inner : Writer Bytes) :
    argument a whole inner = ⟨none, a, whole⟩ := by
  cases a <;> first | rfl | contradiction

section Expressions

open Node

variable (o : Options)

mutual

/-- The text of an expression, whatever the level. -/
theorem write_expr (named : ∀ t, standsAsName t = true → name t) :
    ∀ e : Node, isExpr e = true → (texts name).Meets e →
    (∀ x ∈ unquotedNames e, Balanced name (unquote x)) → ∀ level,
    Writes (Grouped name e) False (write o e level)
  | .assign x value, h, hm, hu, level => by
      have he : isExpr value = true := by simpa only [isExpr] using h
      obtain ⟨hx, hu⟩ := List.forall_mem_cons.mp hu
      rw [write]
      exact .unlessRefused (writeAssign_writes hx
        ((write_expr named value he hm.2 hu level).mono (fun _ => Grouped.balanced) id)
        (callArguments_sound named value he hm.2 hu level))
  | .assignIndex target i value, h, hm, hu, level => by
      simp only [isExpr, Bool.and_eq_true] at h
      obtain ⟨ht, hi, hv⟩ := hm
      simp only [unquotedNames, List.forall_mem_append] at hu
      rw [write]
      refine .unlessRefused (.bind (write_expr named target h.1.1 ht hu.1 level) fun t htext => ?_)
      refine .bind (write_expr named i h.1.2 hi hu.2.1 level) fun i hitext => ?_
      refine .bind (write_expr named value h.2 hv hu.2.2 level) fun v hvtext => ?_
      exact .pure (elementText_balanced htext.balanced hitext.balanced hvtext.balanced)
  | .call f as, h, hm, hu, level => by
      simp only [isExpr, Bool.and_eq_true] at h
      rw [write]
      exact .unlessRefused (writeCall_writes named (arguments_sound named as h.1 hm.2 hu level) hm.1.1)
  | .binary op left right, h, hm, hu, level => by
      simp only [isExpr, Bool.and_eq_true] at h
      obtain ⟨hop, hl, hr⟩ := hm
      simp only [unquotedNames, List.forall_mem_append] at hu
      rw [write]
      refine .unlessRefused (.bind (write_expr named left h.1 hl hu.1 level) fun l hltext => ?_)
      refine .bind (write_expr named right h.2 hr hu.2 level) fun r hrtext => ?_
      exact .pure (binaryText_grouped hop hltext.balanced hrtext.balanced left right)
  | .unary op operand, h, hm, hu, level => by
      have he : isExpr operand = true := by simpa only [isExpr] using h
      rw [write]
      refine .unlessRefused (.bind (write_expr named operand he hm.2 hu level) fun t ht => .pure ?_)
      change Delimited name _
      simpa only [List.append_assoc] using Delimited.parens (hm.1.append ht.balanced)
  | .var x, _, _, hu, level => by
      rw [write]
      refine .unlessRefused (.pure ?_)
      unfold Grouped
      split
      · exact hu x List.mem_cons_self
      · rename_i hstands
        exact .name (named _ (by simpa [isBare] using hstands))
  | .int digits, _, hm, _, level => by
      rw [write]
      exact .unlessRefused (.pure hm)
  | .float value, _, hm, _, level => by
      rw [write]
      exact .unlessRefused (.pure hm)
  | .string value, _, hm, _, level => by
      rw [write]
      exact .unlessRefused (.pure hm)
  | .bool value, _, _, _, level => by
      rw [write]
      exact .unlessRefused (.pure (.literal (.truth value)))
  | .index target i, h, hm, hu, level => by
      simp only [isExpr, Bool.and_eq_true] at h
      simp only [unquotedNames, List.forall_mem_append] at hu
      rw [write]
      refine .unlessRefused (.bind (write_expr named target h.1 hm.1 hu.1 level) fun t htext => ?_)
      refine .bind (write_expr named i h.2 hm.2 hu.2 level) fun i hitext => .pure ?_
      exact index_grouped htext hitext.balanced rfl
  | .field target x, h, hm, hu, level => by
      have he : isExpr target = true := by simpa only [isExpr] using h
      rw [write]
      refine .unlessRefused (.bind (write_expr named target he hm.2.2 hu level) fun t htext => .pure ?_)
      exact index_grouped htext hm.2.1.balanced rfl
  | .predicate test e, h, hm, hu, level => by
      simp only [isExpr, Bool.and_eq_true] at h
      rw [write]
      refine .unlessRefused (.bind (write_expr named e h.2 hm hu level) fun t ht => .pure ?_)
      have hisa : Balanced name (utf8 " isa ") := balanced_plain (by decide)
      have htext := ht.balanced.append (hisa.append (balanced_plain (typeName_plain test)))
      change Delimited name _
      simpa only [List.append_assoc] using Delimited.parens htext
  | .gap, h, _, _, _ | .program _, h, _, _, _ | .block _, h, _, _, _ | .exprStmt _, h, _, _, _
  | .ifElse .., h, _, _, _ | .whileLoop .., h, _, _, _ | .forLoop .., h, _, _, _
  | .function .., h, _, _, _ | .operator .., h, _, _, _ | .ret _, h, _, _, _
  | .named .., h, _, _, _ => by
      simp [isExpr] at h

theorem namedArgument_sound (named : ∀ t, standsAsName t = true → name t) :
    ∀ a : Node, isNamedExpr a = true → (texts name).Meets a →
    (∀ x ∈ unquotedNames a, Balanced name (unquote x)) → ∀ level,
    (argument a (write o a level) (writeNamedValue o a level)).Sound name
  | .named x value, h, hm, hu, level => by
      have he : isExpr value = true := by simpa only [isNamedExpr] using h
      obtain ⟨hx, hv⟩ := hm
      refine ⟨?_, ?_⟩
      · have hw := (write_expr named value he hv hu level).mono (fun _ => Grouped.balanced) id
        simpa only [argument, writeNamedValue] using hw
      · rintro y ⟨⟩
        exact hx
  | .gap, h, _, _, _ | .program _, h, _, _, _ | .block _, h, _, _, _ | .assign .., h, _, _, _
  | .assignIndex .., h, _, _, _ | .exprStmt _, h, _, _, _ | .ifElse .., h, _, _, _
  | .whileLoop .., h, _, _, _ | .forLoop .., h, _, _, _ | .function .., h, _, _, _
  | .operator .., h, _, _, _ | .ret _, h, _, _, _ | .call .., h, _, _, _ | .binary .., h, _, _, _
  | .unary .., h, _, _, _ | .var _, h, _, _, _ | .int _, h, _, _, _ | .float _, h, _, _, _
  | .string _, h, _, _, _ | .bool _, h, _, _, _ | .index .., h, _, _, _ | .field .., h, _, _, _
  | .predicate .., h, _, _, _ => by
      simp [isNamedExpr] at h

theorem arguments_sound (named : ∀ t, standsAsName t = true → name t) :
    ∀ as : List Node, areArgs as = true → (texts name).MeetsAll as →
    (∀ x ∈ unquotedNamesAll as, Balanced name (unquote x)) → ∀ level,
    ∀ a ∈ arguments o as level, a.Sound name
  | [], _, _, _, level => by simp [arguments]
  | a :: as, h, hm, hu, level => by
      simp only [areArgs, Bool.and_eq_true, Bool.or_eq_true] at h
      simp only [unquotedNamesAll, List.forall_mem_append] at hu
      have hexpr := fun he => write_expr named a he hm.1 hu.1 level
      have hnamed := fun he => namedArgument_sound named a he hm.1 hu.1 level
      have has := arguments_sound named as h.2 hm.2 hu.2 level
      rw [arguments]
      intro b hb
      rcases List.mem_cons.mp hb with rfl | hb
      · rcases h.1 with he | he
        · rw [argument_positional (isNamed_of_isExpr he)]
          exact ⟨(hexpr he).mono (fun _ => Grouped.balanced) id, nofun⟩
        · exact hnamed he
      · exact has b hb

theorem callArguments_sound (named : ∀ t, standsAsName t = true → name t) :
    ∀ e : Node, isExpr e = true → (texts name).Meets e →
    (∀ x ∈ unquotedNames e, Balanced name (unquote x)) → ∀ level,
    ∀ a ∈ callArguments o e level, a.Sound name
  | .call f as, h, hm, hu, level => by
      simp only [isExpr, Bool.and_eq_true] at h
      rw [callArguments]
      exact arguments_sound named as h.1 hm.2 hu level
  | .gap, _, _, _, _ | .program _, _, _, _, _ | .block _, _, _, _, _ | .assign .., _, _, _, _
  | .assignIndex .., _, _, _, _ | .exprStmt _, _, _, _, _ | .ifElse .., _, _, _, _
  | .whileLoop .., _, _, _, _ | .forLoop .., _, _, _, _ | .function .., _, _, _, _
  | .operator .., _, _, _, _ | .ret _, _, _, _, _ | .named .., _, _, _, _ | .binary .., _, _, _, _
  | .unary .., _, _, _, _ | .var _, _, _, _, _ | .int _, _, _, _, _ | .float _, _, _, _, _
  | .string _, _, _, _, _ | .bool _, _, _, _, _ | .index .., _, _, _, _ | .field .., _, _, _, _
  | .predicate .., _, _, _, _ => by
      simp [callArguments]

end

end Expressions

end RToJulia.Julia
