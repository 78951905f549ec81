import RToJulia.Proofs.Token.Spelled
import RToJulia.Proofs.Translate.Operands

/-! # The common fragment

Assignments, elements, operators and calls of ordinary functions look alike on both
sides: what is written for them is again a source. Only `&` and `|` are written twice.
In this fragment a tree is written as a text that depends on nothing else, and
writing it leaves no note behind.
-/

namespace RToJulia

open Julia Lexer Text

/-! ## The trees of the fragment -/

def writtenOperator (op : Bytes) : Bytes :=
  if op = "&" then utf8 "&&" else if op = "|" then utf8 "||" else op

/-- A function that is written by its own name and comes from no package. -/
def isOrdinary (f : Bytes) : Bool :=
  f.head? ≠ some 0x60 && f ∉ [utf8 "c", "list", "matrix", "print", "exists"] &&
    (renamed? f).isNone && !(utf8 "data.frame").isPrefixOf f && (Package.ofFunction? f).isNone

namespace Node

mutual

/-- An expression of plain names, integers, truth values, operators, elements and calls of
ordinary functions by position. An assignment may stand where `assigns` says so. -/
def isCommon : Bool → Node → Bool
  | _, var x => x.head? ≠ some 0x60
  | _, int _ | _, bool _ => true
  | _, unary _ operand => isCommon false operand
  | _, binary op left right => op ≠ ":" && isCommon false left && isCommon false right
  | _, index target i => isCommon false target && isCommon true i
  | _, call f args => isOrdinary f && areCommon args
  | assigns, assign x value => assigns && x.head? ≠ some 0x60 && isCommon true value
  | assigns, assignIndex target i value =>
      assigns && isCommon false target && isCommon true i && isCommon true value
  | _, _ => false

def areCommon : List Node → Bool
  | [] => true
  | a :: args => isCommon false a && areCommon args

end

def isCommonStatement : Node → Bool
  | exprStmt e => isCommon false e
  | s => s.isAssignment && isCommon true s

mutual

def doubled : Node → Node
  | exprStmt e => exprStmt (doubled e)
  | unary op operand => unary op (doubled operand)
  | binary op left right => binary (writtenOperator op) (doubled left) (doubled right)
  | index target i => index (doubled target) (doubled i)
  | call f args => call f (doubledAll args)
  | assign x value => assign x (doubled value)
  | assignIndex target i value => assignIndex (doubled target) (doubled i) (doubled value)
  | n => n

def doubledAll : List Node → List Node
  | [] => []
  | n :: ns => doubled n :: doubledAll ns

end

theorem doubledAll_eq_map (ns : List Node) : doubledAll ns = ns.map doubled := by
  induction ns with
  | nil => rw [doubledAll, List.map_nil]
  | cons n ns ih => rw [doubledAll, ih, List.map_cons]

/-! ## Labels of the fragment -/

/-- Expressions of the fragment whose labels are spelled as a source spells them. -/
inductive Common : Bool → Node → Prop
  | var {assigns : Bool} {x : Bytes} (name : isFreeName x = true) : Common assigns (var x)
  | int {assigns : Bool} {digits : Bytes} (nonempty : digits ≠ [])
      (all : digits.all isDigitByte = true) : Common assigns (int digits)
  | bool {assigns : Bool} (value : Bool) : Common assigns (bool value)
  | unary {assigns : Bool} {op : Bytes} {operand : Node} (sign : op = "-" ∨ op = "!")
      (inner : Common false operand) : Common assigns (unary op operand)
  | binary {assigns : Bool} {op : Bytes} {left right : Node} {p : Nat}
      (level : operatorLevel? op = some p) (range : op ≠ ":") (first : Common false left)
      (second : Common false right) : Common assigns (binary op left right)
  | index {assigns : Bool} {target i : Node} (base : Common false target) (key : Common true i) :
      Common assigns (index target i)
  | call {assigns : Bool} {f : Bytes} {args : List Node} (name : isFreeName f = true)
      (ordinary : isOrdinary f = true) (test : isTypeTest f args = false)
      (all : ∀ a ∈ args, Common false a) : Common assigns (call f args)
  | assign {x : Bytes} {value : Node} (name : isFreeName x = true) (result : Common true value) :
      Common true (assign x value)
  | assignIndex {target i value : Node} (base : Common false target) (key : Common true i)
      (result : Common true value) : Common true (assignIndex target i value)

end Node

def Labels.written : Labels where
  name x := x.head? ≠ some 0x60 → isFreeName x = true
  operator op := (operatorLevel? op).isSome = true
  sign op := op = "-" ∨ op = "!"
  digits d := d ≠ [] ∧ d.all isDigitByte = true
  real _ := True
  text _ := True

theorem Lexed.digits {t : Token} {digits : Bytes} (h : Lexed t) (hkind : t.kind = .integer)
    (hliteral : t.literal = some (.text digits)) :
    digits ≠ [] ∧ digits.all isDigitByte = true := by
  cases h with
  | integer line nonempty all =>
      cases hliteral
      exact ⟨nonempty, all⟩
  | mark line kindMark symbols =>
      cases hkind
      contradiction
  | eof | newline | name | quoted | truth | float | string => contradiction

theorem tokens_written (source : Bytes) : ∀ t ∈ tokens source, Labels.written.Carried t := by
  intro t ht
  have hspelled := tokens_spelled source t ht
  refine ⟨fun hk => ⟨hspelled.name hk, trivial⟩, fun hk => ?_,
    sign_of_isSpelled hspelled.operator, fun e he => ?_⟩
  · obtain ⟨p, hp⟩ := Option.isSome_iff_exists.mp hk
    change (operatorLevel? t.lexeme).isSome = true
    rw [operatorLevel?_of_isSpelled hspelled.operator hp]
    rfl
  · unfold Grammar.literalTree? at he
    split at he <;> cases he
    · rename_i digits hkind hliteral
      exact (tokens_lexed source t ht).digits hkind hliteral
    all_goals trivial

namespace Node

mutual

theorem common_of_isCommon : ∀ (assigns : Bool) (e : Node), isCommon assigns e = true →
    isExpr e = true → Labels.written.Meets e → Common assigns e
  | _, var x, h, _, hl => .var (hl (by simpa [isCommon] using h))
  | _, int d, _, _, hl => .int hl.1 hl.2
  | _, Node.bool b, _, _, _ => .bool b
  | _, unary op operand, h, he, hl =>
      .unary hl.1 (common_of_isCommon false operand h he hl.2)
  | _, binary op left right, h, he, hl => by
      simp only [isCommon, isExpr, Bool.and_eq_true, decide_eq_true_eq] at h he
      obtain ⟨p, hp⟩ := Option.isSome_iff_exists.mp hl.1
      exact .binary hp h.1.1 (common_of_isCommon false left h.1.2 he.1 hl.2.1)
        (common_of_isCommon false right h.2 he.2 hl.2.2)
  | _, index target i, h, he, hl => by
      simp only [isCommon, isExpr, Bool.and_eq_true] at h he
      exact .index (common_of_isCommon false target h.1 he.1 hl.1)
        (common_of_isCommon true i h.2 he.2 hl.2)
  | _, call f args, h, he, hl => by
      simp only [isCommon, isExpr, Bool.and_eq_true, Bool.not_eq_true'] at h he
      have hname : f.head? ≠ some 0x60 := by
        have hf := h.1
        simp only [isOrdinary, Bool.and_eq_true, decide_eq_true_eq] at hf
        exact hf.1.1.1.1
      exact .call (hl.1 hname) h.1 he.2 (common_of_areCommon args h.2 he.1 hl.2)
  | assigns, assign x value, h, he, hl => by
      simp only [isCommon, Bool.and_eq_true, decide_eq_true_eq] at h
      obtain ⟨⟨rfl, hx⟩, hv⟩ := h
      exact .assign (hl.1 hx) (common_of_isCommon true value hv he hl.2)
  | assigns, assignIndex target i value, h, he, hl => by
      simp only [isCommon, isExpr, Bool.and_eq_true] at h he
      obtain ⟨⟨⟨rfl, ht⟩, hi⟩, hv⟩ := h
      exact .assignIndex (common_of_isCommon false target ht he.1.1 hl.1)
        (common_of_isCommon true i hi he.1.2 hl.2.1) (common_of_isCommon true value hv he.2 hl.2.2)
  | _, gap, h, _, _ | _, program _, h, _, _ | _, block _, h, _, _ | _, exprStmt _, h, _, _
  | _, ifElse .., h, _, _ | _, whileLoop .., h, _, _ | _, forLoop .., h, _, _
  | _, function .., h, _, _ | _, Node.operator .., h, _, _ | _, ret _, h, _, _
  | _, named .., h, _, _ | _, float _, h, _, _ | _, string _, h, _, _ | _, field .., h, _, _
  | _, predicate .., h, _, _ => by simp [isCommon] at h

theorem common_of_areCommon : ∀ args : List Node, areCommon args = true → areArgs args = true →
    Labels.written.MeetsAll args → ∀ a ∈ args, Common false a
  | [], _, _, _ => by simp
  | a :: args, h, he, hl => by
      simp only [areCommon, areArgs, Bool.and_eq_true, Bool.or_eq_true] at h he
      have hexpr : isExpr a = true := by
        rcases he.1 with he | he
        · exact he
        · have ha := h.1
          cases a <;> simp_all [isNamedExpr, isCommon]
      have ha := common_of_isCommon false a h.1 hexpr hl.1
      have hargs := common_of_areCommon args h.2 he.2 hl.2
      intro b hb
      rcases List.mem_cons.mp hb with rfl | hb
      · exact ha
      · exact hargs b hb

end

theorem Common.isNamed {assigns : Bool} {e : Node} (h : Common assigns e) : e.isNamed = false := by
  cases h <;> rfl

/-! ## The text of a tree -/

mutual

def juliaText : Node → Bytes
  | var x => x
  | int digits => digits
  | bool value => if value then "true" else "false"
  | unary op operand => "(" ++ op ++ juliaText operand ++ ")"
  | binary op left right =>
      "(" ++ juliaText left ++ " " ++ writtenOperator op ++ " " ++ juliaText right ++ ")"
  | index target i => juliaText target ++ "[" ++ juliaText i ++ "]"
  | call f args => f ++ "(" ++ commaList (juliaTexts args) ++ ")"
  | assign x value => x ++ " = " ++ juliaText value
  | assignIndex target i value =>
      juliaText target ++ "[" ++ juliaText i ++ "] = " ++ juliaText value
  | exprStmt e => juliaText e
  | _ => []

def juliaTexts : List Node → List Bytes
  | [] => []
  | n :: ns => juliaText n :: juliaTexts ns

end

theorem juliaTexts_eq_map (ns : List Node) : juliaTexts ns = ns.map juliaText := by
  induction ns with
  | nil => rw [juliaTexts, List.map_nil]
  | cons n ns ih => rw [juliaTexts, ih, List.map_cons]

def isLead (b : UInt8) : Bool :=
  isNameStart b || isDigitByte b || b == 0x28

theorem lead_of_isFreeName {x : Bytes} (h : isFreeName x = true) :
    ∃ b s, x = b :: s ∧ isLead b = true := by
  cases x with
  | nil => simp [isFreeName, isPlainName] at h
  | cons b s =>
      simp only [isFreeName, isPlainName, Bool.and_eq_true] at h
      exact ⟨b, s, rfl, by simp [isLead, h.1.1]⟩

theorem Common.lead {assigns : Bool} {e : Node} (h : Common assigns e) :
    ∃ b s, juliaText e = b :: s ∧ isLead b = true := by
  induction h with
  | var name =>
      rw [juliaText]
      exact lead_of_isFreeName name
  | @int assigns digits nonempty all =>
      rw [juliaText]
      cases digits with
      | nil => contradiction
      | cons b s =>
          rw [List.all_cons, Bool.and_eq_true] at all
          exact ⟨b, s, rfl, by simp [isLead, all.1]⟩
  | bool value => cases value <;> exact ⟨_, _, rfl, by decide⟩
  | unary | binary => exact ⟨0x28, _, rfl, rfl⟩
  | index base key ihbase ihkey | assignIndex base key result ihbase ihkey ihresult =>
      obtain ⟨b, s, hs, hb⟩ := ihbase
      exact ⟨b, _, by rw [juliaText, hs]; rfl, hb⟩
  | call name ordinary test all ih =>
      obtain ⟨b, s, hs, hb⟩ := lead_of_isFreeName name
      exact ⟨b, _, by rw [juliaText, hs]; rfl, hb⟩
  | assign name result ih =>
      obtain ⟨b, s, hs, hb⟩ := lead_of_isFreeName name
      exact ⟨b, _, by rw [juliaText, hs]; rfl, hb⟩

end Node

/-! ## Spelling operators twice -/

theorem operatorLevel?_written (op : Bytes) :
    operatorLevel? (writtenOperator op) = operatorLevel? op := by
  unfold writtenOperator
  split
  · rename_i h
    rw [h]
    decide
  split
  · rename_i h
    rw [h]
    decide
  · rfl

theorem writtenOperator_written (op : Bytes) :
    writtenOperator (writtenOperator op) = writtenOperator op := by
  by_cases hand : op = "&"
  · rw [hand]
    decide
  by_cases hor : op = "|"
  · rw [hor]
    decide
  · simp [writtenOperator, hand, hor]

namespace Node.Common

variable {assigns : Bool} {e : Node}

theorem doubled (h : Common assigns e) : Common assigns e.doubled := by
  induction h with
  | var name => exact .var name
  | int nonempty all => exact .int nonempty all
  | bool value => exact .bool value
  | unary sign inner ih => exact .unary sign ih
  | @binary assigns op left right p level range first second ihfirst ihsecond =>
      refine .binary ((operatorLevel?_written op).trans level) ?_ ihfirst ihsecond
      unfold writtenOperator
      split
      · decide
      split
      · decide
      · exact range
  | index base key ihbase ihkey => exact .index ihbase ihkey
  | @call assigns f args name ordinary test all ih =>
      rw [Node.doubled, doubledAll_eq_map]
      refine .call name ordinary ?_ ?_
      · -- A call of a test by position is a test whatever the argument is.
        match args with
        | [] => exact test
        | [a] =>
            have ha := (all a (by simp)).isNamed
            have hd := (ih a (by simp)).isNamed
            simpa [isTypeTest, ha, hd] using test
        | _ :: _ :: _ => rfl
      · intro d hd
        obtain ⟨a, ha, rfl⟩ := List.mem_map.mp hd
        exact ih a ha
  | assign name result ih => exact .assign name ih
  | assignIndex base key result ihbase ihkey ihresult =>
      exact .assignIndex ihbase ihkey ihresult

theorem juliaText_doubled (h : Common assigns e) : e.doubled.juliaText = e.juliaText := by
  induction h with
  | var | int | bool => rfl
  | unary sign inner ih => simp only [Node.doubled, juliaText, ih]
  | @binary assigns op left right p level range first second ihfirst ihsecond =>
      simp only [Node.doubled, juliaText, ihfirst, ihsecond, writtenOperator_written]
  | index base key ihbase ihkey => simp only [Node.doubled, juliaText, ihbase, ihkey]
  | @call assigns f args name ordinary test all ih =>
      have htexts : (args.map Node.doubled).map juliaText = args.map juliaText := by
        rw [List.map_map]
        exact List.map_congr_left ih
      simp only [Node.doubled, juliaText, juliaTexts_eq_map, doubledAll_eq_map, htexts]
  | assign name result ih => simp only [Node.doubled, juliaText, ih]
  | assignIndex base key result ihbase ihkey ihresult =>
      simp only [Node.doubled, juliaText, ihbase, ihkey, ihresult]

end Node.Common

/-! ## Writing the text -/

namespace Julia

open Writer Argument

/-- The writer yields a value from any state without a refusal, and leaves the state alone. -/
def Gives {α : Type} (m : Writer α) (a : α) : Prop :=
  ∀ w : Work, w.unsupported = none → m w = .ok (a, w)

namespace Gives

variable {α β : Type}

theorem pure (a : α) : Gives (Pure.pure a : Writer α) a := fun _ _ => rfl

theorem bind {m : Writer α} {f : α → Writer β} {a : α} {b : β} (hm : Gives m a)
    (hf : Gives (f a) b) : Gives (m >>= f) b := by
  intro w hw
  rw [bind_run_ok (hm w hw)]
  exact hf w hw

theorem unlessRefused {m : Writer Bytes} {text : Bytes} (h : Gives m text) :
    Gives (unlessRefused m) text := by
  intro w hw
  have hrun : Writer.unlessRefused m w = m w := by
    change (if w.unsupported.isSome then Pure.pure [] else m) w = m w
    rw [hw]
    rfl
  rw [hrun]
  exact h w hw

theorem useFunction {f : Bytes} (h : Package.ofFunction? f = none) : Gives (useFunction f) () := by
  intro w _
  exact useFunction_run_none h w

theorem mapM {ι : Type} {f : ι → Writer α} {g : ι → α} {items : List ι}
    (h : ∀ i ∈ items, Gives (f i) (g i)) : Gives (items.mapM f) (items.map g) := by
  induction items with
  | nil =>
      rw [List.mapM_nil]
      exact pure []
  | cons i items ih =>
      rw [List.mapM_cons]
      exact (h i (by simp)).bind ((ih fun j hj => h j (by simp [hj])).bind (pure _))

end Gives

section Calls

variable {o : Options} {f : Bytes} {args : List Node} {level : Nat}

/-- Arguments that are all passed by position. -/
theorem arguments_positional (h : ∀ a ∈ args, a.isNamed = false) :
    arguments o args level = args.map fun a => ⟨none, a, write o a level⟩ := by
  induction args with
  | nil => rw [arguments, List.map_nil]
  | cons a args ih =>
      have ha : argument a (write o a level) (writeNamedValue o a level) =
          ⟨none, a, write o a level⟩ := by
        have hnamed := h a (by simp)
        cases a <;> first | rfl | contradiction
      rw [arguments, ha, ih fun b hb => h b (by simp [hb]), List.map_cons]

/-- A call by position is the name and the arguments in parentheses. -/
theorem plainCall_gives {texts : Node → Bytes} (hf : Package.ofFunction? f = none)
    (h : ∀ a ∈ args, Gives (write o a level) (texts a)) :
    Gives (plainCall f (args.map fun a => ⟨none, a, write o a level⟩))
      (f ++ "(" ++ commaList (args.map texts) ++ ")") := by
  have hpositional : positional (args.map fun a => (⟨none, a, write o a level⟩ : Argument)) =
      args.map fun a => ⟨none, a, write o a level⟩ := by
    simp [positional]
  have hnamed : Argument.named (args.map fun a => (⟨none, a, write o a level⟩ : Argument)) = [] := by
    simp [Argument.named]
  have hwrite : Gives (writeAll (args.map fun a => (⟨none, a, write o a level⟩ : Argument)))
      (args.map texts) := by
    rw [writeAll, List.mapM_map]
    exact Gives.mapM h
  unfold plainCall
  rw [hpositional]
  refine (Gives.useFunction hf).bind (hwrite.bind ?_)
  rw [writeNamed, hnamed, List.mapM_nil]
  exact Gives.pure _

theorem writeCall_ordinary (h : isOrdinary f = true) (as : List Argument) :
    writeCall o f as = plainCall f as := by
  simp only [isOrdinary, Bool.and_eq_true, decide_eq_true_eq, Bool.not_eq_true',
    Option.isNone_iff_eq_none, List.mem_cons, List.not_mem_nil, or_false, not_or] at h
  obtain ⟨⟨⟨⟨-, hc, hlist, hmatrix, hprint, hexists⟩, hrenamed⟩, htable⟩, -⟩ := h
  simp [writeCall, hc, hlist, hmatrix, hprint, hexists, hrenamed, htable]

/-- Only a class that is passed by name makes a record. -/
theorem recordClass?_positional (h : ∀ a ∈ args, a.isNamed = false) :
    recordClass? f args = none := by
  have hnamed : Node.namedArgs args = [] := by
    unfold Node.namedArgs
    rw [List.filterMap_eq_nil_iff]
    intro a ha
    have hnamed := h a ha
    cases a <;> first | rfl | contradiction
  simp [recordClass?, Node.lookup?, hnamed]

theorem writeAssign_plain {x : Bytes} {value : Node} {plain : Writer Bytes} {as : List Argument}
    (h : ∀ f args, value = .call f args → recordClass? f args = none) :
    writeAssign x value plain as = do return unquote x ++ " = " ++ (← plain) := by
  unfold writeAssign
  cases value with
  | call f args =>
      dsimp only
      rw [h f args rfl]
  | _ => rfl

end Calls

open Node

/-- An expression of the fragment is written as its text, whatever the options and the level. -/
theorem write_common {assigns : Bool} {e : Node} (h : Common assigns e) (o : Options)
    (level : Nat) : Gives (write o e level) (juliaText e) := by
  induction h with
  | @var assigns x name =>
      rw [write, juliaText, unquote_plain (isFreeName_spec name).1]
      exact (Gives.pure x).unlessRefused
  | int | bool =>
      rw [write, juliaText]
      exact (Gives.pure _).unlessRefused
  | unary sign inner ih =>
      rw [write, juliaText]
      refine (ih.bind ?_).unlessRefused
      exact Gives.pure _
  | @binary assigns op left right p level range first second ihleft ihright =>
      rw [write, juliaText]
      refine (ihleft.bind (ihright.bind ?_)).unlessRefused
      have htext : binaryText op (juliaText left) (juliaText right) = "(" ++ juliaText left ++ " " ++
          writtenOperator op ++ " " ++ juliaText right ++ ")" := by
        simp [binaryText, range, writtenOperator]
      rw [htext]
      exact Gives.pure _
  | index base key ihbase ihkey =>
      rw [write, juliaText]
      refine (ihbase.bind (ihkey.bind ?_)).unlessRefused
      exact Gives.pure _
  | @call assigns f args name ordinary test all ih =>
      have hpackage : Package.ofFunction? f = none := by
        simp only [isOrdinary, Bool.and_eq_true, Option.isNone_iff_eq_none] at ordinary
        exact ordinary.2
      rw [write, juliaText, writeCall_ordinary ordinary,
        arguments_positional fun a ha => (all a ha).isNamed, juliaTexts_eq_map]
      exact (plainCall_gives hpackage ih).unlessRefused
  | @assign x value name result ih =>
      have hclass : ∀ f args, value = .call f args → recordClass? f args = none := by
        rintro f args rfl
        cases result with
        | call name ordinary test all =>
            exact recordClass?_positional fun a ha => (all a ha).isNamed
      rw [write, juliaText, writeAssign_plain hclass, unquote_plain (isFreeName_spec name).1]
      refine (ih.bind ?_).unlessRefused
      exact Gives.pure _
  | @assignIndex target i value base key result ihbase ihkey ihresult =>
      have hstring : isStringText (juliaText i) = false ∧ isStringIndex i = false := by
        obtain ⟨b, s, hs, hb⟩ := key.lead
        have hquote : b ≠ 0x22 := by
          rintro rfl
          contradiction
        refine ⟨by simp [isStringText, hs, hquote], ?_⟩
        cases key <;> rfl
      rw [write, juliaText]
      refine (ihbase.bind (ihkey.bind (ihresult.bind ?_))).unlessRefused
      rw [elementText, hstring.1, hstring.2]
      simpa using Gives.pure _

end Julia

end RToJulia
