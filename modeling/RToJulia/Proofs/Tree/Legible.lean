import RToJulia.Proofs.Decimal.Print
import RToJulia.Proofs.Tree.Precedence
import RToJulia.Proofs.Tree.Sexp

/-!
# Trees read from their S-expressions

The S-expression of a tree as a value, and a reader for it.  A tree is legible when its labels are
words that its S-expression shows in full.  The text of a legible tree is the text of its
S-expression, and reading that gives the tree back: an open place is known by the number of items, a
sign by its single operand.
-/

namespace RToJulia

open Text Decimal

/-! ## Heads of forms -/

inductive Head where
  | program | block | assign | assignIndex | exprStmt | ifElse | whileLoop | forLoop | function | ret
  | call | named | var | int | float | string | bool | index | field
  deriving DecidableEq

namespace Head

def text : Head → Bytes
  | program => "program"
  | block => "block"
  | assign => "assign"
  | assignIndex => "assign-index"
  | exprStmt => "expr"
  | ifElse => "if"
  | whileLoop => "while"
  | forLoop => "for"
  | function => "function"
  | ret => "return"
  | call => "call"
  | named => "named"
  | var => "var"
  | int => "int"
  | float => "float"
  | string => "string"
  | bool => "bool"
  | index => "index"
  | field => "field"

def all : List Head :=
  [program, block, assign, assignIndex, exprStmt, ifElse, whileLoop, forLoop, function, ret,
    call, named, var, int, float, string, bool, index, field]

def ofText? (t : Bytes) : Option Head :=
  all.find? fun h => h.text = t

theorem mem_all (h : Head) : h ∈ all := by
  cases h <;> decide

theorem ofText?_text (h : Head) : ofText? h.text = some h := by
  have hall : ∀ h ∈ all, ofText? h.text = some h := by decide
  exact hall h h.mem_all

theorem isWord_text (h : Head) : Sexp.isWord h.text = true := by
  have hall : ∀ h ∈ all, Sexp.isWord h.text = true := by decide
  exact hall h h.mem_all

end Head

/-! ## The S-expression of a tree -/

def Sexp.form (h : Head) (items : List Sexp) : Sexp :=
  .list (.word h.text :: items)

namespace Node

mutual

def sexp : Node → Sexp
  | gap => .list []
  | program ss => .form .program (sexps ss)
  | block ss => .form .block (sexps ss)
  | assign x value => .form .assign [.word x, sexp value]
  | assignIndex target i value => .form .assignIndex [sexp target, sexp i, sexp value]
  | exprStmt e => .form .exprStmt [sexp e]
  | ifElse cond yes no => .form .ifElse (sexp cond :: (bodySexp yes ++ bodySexp no))
  | whileLoop cond body => .form .whileLoop (sexp cond :: bodySexp body)
  | forLoop x start stop body =>
      .form .forLoop (.word x :: ((if start.isGap then [] else [sexp start]) ++
        (sexp stop :: bodySexp body)))
  | function x params body =>
      .form .function (.word x :: .list (params.map .word) :: bodySexp body)
  | operator _ _ _ _ => .list []
  | ret value => .form .ret (if value.isGap then [] else [sexp value])
  | call f args => .form .call (.word f :: sexps args)
  | named x value => .form .named [.word x, sexp value]
  | binary op left right => .list [.word op, sexp left, sexp right]
  | unary op operand => .list [.word op, sexp operand]
  | var x => .form .var [.word x]
  | int digits => .form .int [.word digits]
  | float value => .form .float [.word value.generalForm]
  | string value => .form .string [.word (quoted value)]
  | bool value => .form .bool [.word (truthText value)]
  | index target i => .form .index [sexp target, sexp i]
  | field target x => .form .field [sexp target, .word x]
  | predicate test e => .list [.word test.name, sexp e]

def sexps : List Node → List Sexp
  | [] => []
  | n :: ns => sexp n :: sexps ns

def bodySexp : Option (List Node) → List Sexp
  | none => []
  | some ss => [.form .block (sexps ss)]

end

theorem sexps_eq_map (ns : List Node) : sexps ns = ns.map sexp := by
  induction ns with
  | nil => rw [sexps, List.map_nil]
  | cons n ns ih => rw [sexps, ih, List.map_cons]

@[simp]
theorem sexp_text_ne_nil (n : Node) : n.sexp.text ≠ [] := by
  cases n <;> simp [sexp, Sexp.form, Sexp.text]

@[simp]
theorem form_text_ne_nil (h : Head) (items : List Sexp) : (Sexp.form h items).text ≠ [] := by
  simp [Sexp.form, Sexp.text]

theorem ne_nil_of_isWord {t : Bytes} (h : Sexp.isWord t = true) : t ≠ [] := by
  rintro rfl
  cases h

theorem isWord_generalForm (m : Nat) (e : Int) :
    Sexp.isWord (Binary64.finite false m e).generalForm = true := by
  obtain ⟨whole, fraction, exponent, h⟩ := Julia.generalForm_numeral m e
  have hbytes : ∀ b, Julia.isNumberByte b = true → Sexp.isWordByte b = true := by
    intro b hb
    simp only [Sexp.isWordByte, decide_eq_true_eq]
    intro hmem
    simp only [List.mem_cons, List.not_mem_nil, or_false] at hmem
    rcases hmem with rfl | rfl | rfl | rfl <;> cases hb
  have hne : (Binary64.finite false m e).generalForm ≠ [] := by
    rw [h.parts]
    have hwhole := h.whole
    rintro hnil
    simp only [List.append_eq_nil_iff] at hnil
    rw [hnil.1.1] at hwhole
    cases hwhole
  simp only [Sexp.isWord, Bool.and_eq_true, decide_eq_true_eq, List.all_eq_true]
  exact ⟨hne, fun b hb => hbytes b (List.all_eq_true.mp h.bytes b hb)⟩

/-! ## Legible trees -/

/-- A tree whose labels are words, exact numbers and well-formed text, without gaps but for the three
places that may be open, and without declarations of operators. -/
inductive Legible : Node → Prop
  | program {ss : List Node} (all : ∀ s ∈ ss, Legible s) : Legible (program ss)
  | assign {x : Bytes} {value : Node} (name : Sexp.isWord x = true) (hvalue : Legible value) :
      Legible (assign x value)
  | assignIndex {target i value : Node} (htarget : Legible target) (hi : Legible i)
      (hvalue : Legible value) : Legible (assignIndex target i value)
  | exprStmt {e : Node} (h : Legible e) : Legible (exprStmt e)
  | ifElse {cond : Node} {yes : List Node} {no : Option (List Node)} (hcond : Legible cond)
      (hyes : ∀ s ∈ yes, Legible s) (hno : ∀ ss, no = some ss → ∀ s ∈ ss, Legible s) :
      Legible (ifElse cond (some yes) no)
  | whileLoop {cond : Node} {body : List Node} (hcond : Legible cond)
      (hbody : ∀ s ∈ body, Legible s) : Legible (whileLoop cond (some body))
  | forLoop {x : Bytes} {start stop : Node} {body : List Node} (name : Sexp.isWord x = true)
      (hstart : start.isGap = false → Legible start) (hstop : Legible stop)
      (hbody : ∀ s ∈ body, Legible s) : Legible (forLoop x start stop (some body))
  | function {x : Bytes} {params : List Bytes} {body : List Node} (name : Sexp.isWord x = true)
      (hparams : ∀ p ∈ params, Sexp.isWord p = true) (hbody : ∀ s ∈ body, Legible s) :
      Legible (function x params (some body))
  | ret {value : Node} (hvalue : value.isGap = false → Legible value) : Legible (ret value)
  | call {f : Bytes} {args : List Node} (name : Sexp.isWord f = true) (hargs : ∀ a ∈ args, Legible a) :
      Legible (call f args)
  | named {x : Bytes} {value : Node} (name : Sexp.isWord x = true) (hvalue : Legible value) :
      Legible (named x value)
  | binary {op : Bytes} {left right : Node} (hop : (operatorLevel? op).isSome = true)
      (hleft : Legible left) (hright : Legible right) : Legible (binary op left right)
  | unary {op : Bytes} {operand : Node} (hop : op = "-" ∨ op = "!") (h : Legible operand) :
      Legible (unary op operand)
  | var {x : Bytes} (name : Sexp.isWord x = true) : Legible (var x)
  | int {digits : Bytes} (hdigits : Sexp.isWord digits = true) : Legible (int digits)
  | float {m : Nat} {e : Int} (h : Binary64.IsCanonical m e) : Legible (float (.finite false m e))
  | string (cs : List Char) : Legible (string (encode cs))
  | bool (value : Bool) : Legible (bool value)
  | index {target i : Node} (htarget : Legible target) (hi : Legible i) : Legible (index target i)
  | field {target : Node} {x : Bytes} (htarget : Legible target) (name : Sexp.isWord x = true) :
      Legible (field target x)
  | predicate {test : Predicate} {e : Node} (known : test.isKnown = true) (h : Legible e) :
      Legible (predicate test e)

/-! ## Operators and tests have heads of their own -/

theorem operator_mem {op : Bytes} (h : (operatorLevel? op).isSome = true) :
    op ∈ Canonical.operators.map fun entry => utf8 entry.1 := by
  obtain ⟨p, hp⟩ := Option.isSome_iff_exists.mp h
  obtain ⟨entry, hmem, hop, -, -⟩ := operator_of_level hp
  exact List.mem_map.mpr ⟨entry, hmem, hop⟩

theorem operator_head {op : Bytes} (h : (operatorLevel? op).isSome = true) :
    Sexp.isWord op = true ∧ Head.ofText? op = none ∧ Predicate.ofName? op = none := by
  have hall : ∀ op ∈ Canonical.operators.map fun entry => utf8 entry.1,
      Sexp.isWord op = true ∧ Head.ofText? op = none ∧ Predicate.ofName? op = none := by decide
  exact hall op (operator_mem h)

theorem sign_head {op : Bytes} (h : op = "-" ∨ op = "!") :
    Sexp.isWord op = true ∧ Head.ofText? op = none ∧ Predicate.ofName? op = none := by
  rcases h with rfl | rfl <;> decide

theorem test_head {test : Predicate} (h : test.isKnown = true) :
    Sexp.isWord test.name = true ∧ Head.ofText? test.name = none ∧
      Predicate.ofName? test.name = some test := by
  have hknown : Predicate.ofName? test.name = some test := by simpa [Predicate.isKnown] using h
  have hall : ∀ test ∈ Predicate.table.map Prod.fst,
      Sexp.isWord test.name = true ∧ Head.ofText? test.name = none := by decide
  obtain ⟨entry, hfind, rfl⟩ := Option.map_eq_some_iff.mp hknown
  obtain ⟨hword, hhead⟩ := hall _ (List.mem_map_of_mem (List.mem_of_find?_eq_some hfind))
  exact ⟨hword, hhead, hknown⟩

/-! ## The text of a legible tree -/

theorem form_eq {head : Bytes} {parts : List Bytes} {items : List Sexp}
    (h : (head :: parts).filter (· ≠ []) = items.map Sexp.text) :
    form head parts = (Sexp.list items).text := by
  rw [form, joinNonempty, h, Sexp.text, Sexp.texts_eq_map]
  rfl

theorem render_form (h : Head) (items : List Sexp) {parts : List Bytes}
    (hparts : parts.filter (· ≠ []) = items.map Sexp.text) :
    (.ok (form h.text parts) : Except Missing Bytes) = .ok (Sexp.form h items).text := by
  have hne : h.text ≠ [] := by cases h <;> decide
  have hall : (h.text :: parts).filter (· ≠ []) = (Sexp.word h.text :: items).map Sexp.text := by
    rw [List.filter_cons_of_pos (by simpa using hne), hparts]
    rfl
  exact congrArg Except.ok (form_eq hall)

theorem renderAll_eq {ns : List Node} (h : ∀ n ∈ ns, render n = .ok n.sexp.text) :
    renderAll ns = .ok (ns.map (·.sexp.text)) := by
  induction ns with
  | nil => rfl
  | cons n ns ih =>
      rw [renderAll, h n List.mem_cons_self, ih fun m hm => h m (List.mem_cons_of_mem _ hm)]
      rfl

theorem filter_texts (ns : List Node) :
    (ns.map (·.sexp.text)).filter (· ≠ []) = (sexps ns).map Sexp.text := by
  rw [sexps_eq_map, List.map_map, List.filter_eq_self.mpr]
  · rfl
  · intro t ht
    obtain ⟨n, -, rfl⟩ := List.mem_map.mp ht
    simp

theorem renderBody_eq {ss : List Node} (h : ∀ s ∈ ss, render s = .ok s.sexp.text) :
    renderBody (some ss) = .ok (Sexp.form .block (sexps ss)).text := by
  rw [renderBody, renderAll_eq h, ← render_form .block (sexps ss) (filter_texts ss)]
  rfl

theorem renderElse_eq {ss : List Node} (h : ∀ s ∈ ss, render s = .ok s.sexp.text) :
    renderElse (some ss) = .ok (Sexp.form .block (sexps ss)).text :=
  renderBody_eq h

theorem optional_eq {n : Node} (h : n.isGap = false) (text : Except Missing Bytes) :
    optional n text = text := by
  cases n <;> first | rfl | contradiction

theorem form_words {params : List Bytes} (h : ∀ p ∈ params, Sexp.isWord p = true) :
    form [] params = (Sexp.list (params.map .word)).text := by
  apply form_eq
  rw [List.filter_cons_of_neg (by simp), List.filter_eq_self.mpr, List.map_map]
  · exact (List.map_id params).symm
  · intro p hp
    simpa using ne_nil_of_isWord (h p hp)

/-- The text of a legible tree is that of its S-expression. -/
theorem Legible.render_eq {n : Node} (h : Legible n) : render n = .ok n.sexp.text := by
  induction h with
  | program all ih =>
      rw [render, renderAll_eq ih]
      exact render_form .program (sexps _) (filter_texts _)
  | @assign x value name hvalue ih =>
      rw [render, ih]
      exact render_form .assign [.word x, value.sexp] (by simp [ne_nil_of_isWord name])
  | @assignIndex target i value htarget hi hvalue ihtarget ihi ihvalue =>
      rw [render, ihtarget, ihi, ihvalue]
      exact render_form .assignIndex [target.sexp, i.sexp, value.sexp] (by simp)
  | @exprStmt e h ih =>
      rw [render, ih]
      exact render_form .exprStmt [e.sexp] (by simp)
  | @ifElse cond yes no hcond hyes hno ihcond ihyes ihno =>
      rw [render, ihcond, renderBody_eq ihyes]
      cases no with
      | none => exact render_form .ifElse [cond.sexp, .form .block (sexps yes)] (by simp)
      | some no =>
          rw [renderElse_eq (ihno no rfl)]
          exact render_form .ifElse [cond.sexp, .form .block (sexps yes), .form .block (sexps no)]
            (by simp)
  | @whileLoop cond body hcond hbody ihcond ihbody =>
      rw [render, ihcond, renderBody_eq ihbody]
      exact render_form .whileLoop [cond.sexp, .form .block (sexps body)] (by simp)
  | @forLoop x start stop body name hstart hstop hbody ihstart ihstop ihbody =>
      rw [render, ihstop, renderBody_eq ihbody, sexp]
      cases hgap : start.isGap with
      | true =>
          cases eq_gap_of_isGap hgap
          exact render_form .forLoop [.word x, stop.sexp, .form .block (sexps body)]
            (by simp [ne_nil_of_isWord name])
      | false =>
          rw [optional_eq hgap, ihstart hgap]
          exact render_form .forLoop [.word x, start.sexp, stop.sexp, .form .block (sexps body)]
            (by simp [ne_nil_of_isWord name])
  | @function x params body name hparams hbody ihbody =>
      rw [render, renderBody_eq ihbody, form_words hparams]
      exact render_form .function [.word x, .list (params.map .word), .form .block (sexps body)]
        (by simp [ne_nil_of_isWord name])
  | @ret value hvalue ih =>
      rw [render, sexp]
      cases hgap : value.isGap with
      | true =>
          cases eq_gap_of_isGap hgap
          exact render_form .ret [] rfl
      | false =>
          rw [optional_eq hgap, ih hgap]
          exact render_form .ret [value.sexp] (by simp)
  | @call f args name hargs ih =>
      rw [render, renderAll_eq ih]
      refine render_form .call (.word f :: sexps args) ?_
      rw [List.filter_cons_of_pos (by simpa using ne_nil_of_isWord name), filter_texts]
      rfl
  | @named x value name hvalue ih =>
      rw [render, ih]
      exact render_form .named [.word x, value.sexp] (by simp [ne_nil_of_isWord name])
  | @binary op left right hop hleft hright ihleft ihright =>
      rw [render, ihleft, ihright]
      exact congrArg Except.ok (form_eq (by simp [ne_nil_of_isWord (operator_head hop).1]))
  | @unary op operand hop h ih =>
      rw [render, ih]
      exact congrArg Except.ok (form_eq (by simp [ne_nil_of_isWord (sign_head hop).1]))
  | @var x name =>
      rw [render]
      exact render_form .var [.word x] (by simp [ne_nil_of_isWord name])
  | @int digits hdigits =>
      rw [render]
      exact render_form .int [.word digits] (by simp [ne_nil_of_isWord hdigits])
  | @float m e h =>
      rw [render]
      exact render_form .float [.word (Binary64.finite false m e).generalForm]
        (by simp [ne_nil_of_isWord (isWord_generalForm m e)])
  | string cs =>
      rw [render]
      exact render_form .string [.word (quoted (encode cs))] rfl
  | bool value =>
      rw [render]
      exact render_form .bool [.word (truthText value)] (by cases value <;> rfl)
  | @index target i htarget hi ihtarget ihi =>
      rw [render, ihtarget, ihi]
      exact render_form .index [target.sexp, i.sexp] (by simp)
  | @field target x htarget name ih =>
      rw [render, ih]
      exact render_form .field [target.sexp, .word x] (by simp [ne_nil_of_isWord name])
  | @predicate test e known h ih =>
      rw [render, ih]
      exact congrArg Except.ok (form_eq (by simp [ne_nil_of_isWord (test_head known).1]))

/-! ## The words of a legible tree -/

theorem fits_form (h : Head) {items : List Sexp} (fits : ∀ i ∈ items, i.Fits) :
    (Sexp.form h items).Fits :=
  .list (List.forall_mem_cons.mpr ⟨.word h.isWord_text, fits⟩)

theorem fits_sexps {ns : List Node} (h : ∀ n ∈ ns, n.sexp.Fits) : ∀ i ∈ sexps ns, i.Fits := by
  intro i hi
  rw [sexps_eq_map] at hi
  obtain ⟨n, hn, rfl⟩ := List.mem_map.mp hi
  exact h n hn

theorem fits_body {ss : List Node} (h : ∀ s ∈ ss, s.sexp.Fits) :
    (Sexp.form .block (sexps ss)).Fits :=
  fits_form .block (fits_sexps h)

theorem Legible.fits {n : Node} (h : Legible n) : n.sexp.Fits := by
  induction h with
  | program all ih => exact fits_form .program (fits_sexps ih)
  | assign name hvalue ih => exact fits_form .assign (by simp [Sexp.Fits.word name, ih])
  | assignIndex htarget hi hvalue ihtarget ihi ihvalue =>
      exact fits_form .assignIndex (by simp [ihtarget, ihi, ihvalue])
  | exprStmt h ih => exact fits_form .exprStmt (by simp [ih])
  | @ifElse cond yes no hcond hyes hno ihcond ihyes ihno =>
      have hyes := fits_body ihyes
      cases no with
      | none => exact fits_form .ifElse (by simp [bodySexp, ihcond, hyes])
      | some no =>
          have hno := fits_body (ihno no rfl)
          exact fits_form .ifElse (by simp [bodySexp, ihcond, hyes, hno])
  | whileLoop hcond hbody ihcond ihbody =>
      exact fits_form .whileLoop (by simp [bodySexp, ihcond, fits_body ihbody])
  | @forLoop x start stop body name hstart hstop hbody ihstart ihstop ihbody =>
      refine fits_form .forLoop ?_
      cases hgap : start.isGap with
      | true => simp [bodySexp, Sexp.Fits.word name, ihstop, fits_body ihbody]
      | false => simp [bodySexp, Sexp.Fits.word name, ihstart hgap, ihstop, fits_body ihbody]
  | @function x params body name hparams hbody ihbody =>
      have hlist : (Sexp.list (params.map .word)).Fits := by
        refine .list fun i hi => ?_
        obtain ⟨p, hp, rfl⟩ := List.mem_map.mp hi
        exact .word (hparams p hp)
      exact fits_form .function (by simp [bodySexp, Sexp.Fits.word name, hlist, fits_body ihbody])
  | @ret value hvalue ih =>
      refine fits_form .ret ?_
      cases hgap : value.isGap with
      | true => simp
      | false => simp [ih hgap]
  | call name hargs ih =>
      exact fits_form .call (List.forall_mem_cons.mpr ⟨.word name, fits_sexps ih⟩)
  | named name hvalue ih => exact fits_form .named (by simp [Sexp.Fits.word name, ih])
  | binary hop hleft hright ihleft ihright =>
      exact .list (by simp [Sexp.Fits.word (operator_head hop).1, ihleft, ihright])
  | unary hop h ih => exact .list (by simp [Sexp.Fits.word (sign_head hop).1, ih])
  | var name => exact fits_form .var (by simp [Sexp.Fits.word name])
  | int hdigits => exact fits_form .int (by simp [Sexp.Fits.word hdigits])
  | @float m e h => exact fits_form .float (by simp [Sexp.Fits.word (isWord_generalForm m e)])
  | string cs => exact fits_form .string (by simp [Sexp.Fits.quoted cs])
  | bool value =>
      have hword : Sexp.isWord (truthText value) = true := by cases value <;> rfl
      exact fits_form .bool (by simp [Sexp.Fits.word hword])
  | index htarget hi ihtarget ihi => exact fits_form .index (by simp [ihtarget, ihi])
  | field htarget name ih => exact fits_form .field (by simp [ih, Sexp.Fits.word name])
  | predicate known h ih => exact .list (by simp [Sexp.Fits.word (test_head known).1, ih])

/-! ## Reading -/

section Read

variable (real : Bytes → Binary64) (text : Bytes → Bytes)

def wordOf : Sexp → Bytes
  | .word t => t
  | .list _ => []

def wordsOf : Sexp → List Bytes
  | .word _ => []
  | .list items => items.map wordOf

def statementsOf? : Node → Option (List Node)
  | block ss => some ss
  | _ => none

def wordAt (items : List Sexp) (i : Nat) : Bytes :=
  wordOf (items.getD i (.list []))

def treeAt (trees : List Node) (i : Nat) : Node :=
  trees.getD i gap

def build (items : List Sexp) (trees : List Node) : Head → Node
  | .program => program trees
  | .block => block trees
  | .assign => assign (wordAt items 0) (treeAt trees 1)
  | .assignIndex => assignIndex (treeAt trees 0) (treeAt trees 1) (treeAt trees 2)
  | .exprStmt => exprStmt (treeAt trees 0)
  | .ifElse => ifElse (treeAt trees 0) (statementsOf? (treeAt trees 1)) (statementsOf? (treeAt trees 2))
  | .whileLoop => whileLoop (treeAt trees 0) (statementsOf? (treeAt trees 1))
  | .forLoop =>
      if items.length = 3 then forLoop (wordAt items 0) gap (treeAt trees 1) (statementsOf? (treeAt trees 2))
      else forLoop (wordAt items 0) (treeAt trees 1) (treeAt trees 2) (statementsOf? (treeAt trees 3))
  | .function => function (wordAt items 0) (wordsOf (items.getD 1 (.list []))) (statementsOf? (treeAt trees 2))
  | .ret => ret (treeAt trees 0)
  | .call => call (wordAt items 0) trees.tail
  | .named => named (wordAt items 0) (treeAt trees 1)
  | .var => var (wordAt items 0)
  | .int => int (wordAt items 0)
  | .float => float (real (wordAt items 0))
  | .string => string (text (wordAt items 0))
  | .bool => bool (wordAt items 0 = truthText true)
  | .index => index (treeAt trees 0) (treeAt trees 1)
  | .field => field (treeAt trees 0) (wordAt items 1)

def assemble : List Sexp → List Node → Node
  | .word head :: items, _ :: trees =>
      match Head.ofText? head, Predicate.ofName? head, trees with
      | some h, _, trees => build real text items trees h
      | none, some test, [e] => predicate test e
      | none, none, [operand] => unary head operand
      | none, none, [left, right] => binary head left right
      | _, _, _ => gap
  | _, _ => gap

mutual

/-- The tree of an S-expression; one that stands for no tree is read as a gap. -/
def read : Sexp → Node
  | .word _ => gap
  | .list items => assemble real text items (readAll items)

def readAll : List Sexp → List Node
  | [] => []
  | i :: items => read i :: readAll items

end

theorem read_form (h : Head) (items : List Sexp) :
    read real text (.form h items) = build real text items (readAll real text items) h := by
  simp only [Sexp.form, read, readAll, assemble, h.ofText?_text]

theorem readAll_sexps {ns : List Node} (h : ∀ n ∈ ns, read real text n.sexp = n) :
    readAll real text (sexps ns) = ns := by
  induction ns with
  | nil => rw [sexps, readAll]
  | cons n ns ih =>
      rw [sexps, readAll, h n List.mem_cons_self, ih fun m hm => h m (List.mem_cons_of_mem _ hm)]

theorem read_body {ss : List Node} (h : ∀ s ∈ ss, read real text s.sexp = s) :
    read real text (.form .block (sexps ss)) = block ss := by
  rw [read_form, readAll_sexps real text h, build]

variable {real text}

/-- A legible tree is read back from its S-expression. -/
theorem Legible.read_eq {n : Node} (h : Legible n)
    (hreal : ∀ m e, Binary64.IsCanonical m e →
      real (Binary64.finite false m e).generalForm = .finite false m e)
    (htext : ∀ cs, text (quoted (encode cs)) = encode cs) : read real text n.sexp = n := by
  induction h with
  | program all ih => rw [sexp, read_form, readAll_sexps real text ih, build]
  | assign name hvalue ih => simp [sexp, read_form, readAll, build, wordAt, treeAt, wordOf, ih]
  | assignIndex htarget hi hvalue ihtarget ihi ihvalue =>
      simp [sexp, read_form, readAll, build, treeAt, ihtarget, ihi, ihvalue]
  | exprStmt h ih => simp [sexp, read_form, readAll, build, treeAt, ih]
  | @ifElse cond yes no hcond hyes hno ihcond ihyes ihno =>
      have hyes := read_body real text ihyes
      cases no with
      | none => simp [sexp, bodySexp, read_form, readAll, build, treeAt, statementsOf?, ihcond, hyes]
      | some no =>
          have hno := read_body real text (ihno no rfl)
          simp [sexp, bodySexp, read_form, readAll, build, treeAt, statementsOf?, ihcond, hyes, hno]
  | whileLoop hcond hbody ihcond ihbody =>
      have hbody := read_body real text ihbody
      simp [sexp, bodySexp, read_form, readAll, build, treeAt, statementsOf?, ihcond, hbody]
  | @forLoop x start stop body name hstart hstop hbody ihstart ihstop ihbody =>
      have hbody := read_body real text ihbody
      cases hgap : start.isGap with
      | true =>
          cases eq_gap_of_isGap hgap
          simp [sexp, bodySexp, read_form, readAll, build, wordAt, treeAt, wordOf, statementsOf?,
            hgap, ihstop, hbody]
      | false =>
          simp [sexp, bodySexp, read_form, readAll, build, wordAt, treeAt, wordOf, statementsOf?,
            hgap, ihstart hgap, ihstop, hbody]
  | @function x params body name hparams hbody ihbody =>
      have hbody := read_body real text ihbody
      have hwords : params.map (wordOf ∘ Sexp.word) = params := List.map_id params
      simp [sexp, bodySexp, read_form, readAll, build, wordAt, treeAt, wordOf, wordsOf,
        statementsOf?, hwords, hbody]
  | @ret value hvalue ih =>
      cases hgap : value.isGap with
      | true =>
          cases eq_gap_of_isGap hgap
          simp [sexp, read_form, readAll, build, treeAt, hgap]
      | false => simp [sexp, read_form, readAll, build, treeAt, hgap, ih hgap]
  | call name hargs ih =>
      simp [sexp, read_form, readAll, build, wordAt, wordOf, readAll_sexps real text ih]
  | named name hvalue ih => simp [sexp, read_form, readAll, build, wordAt, treeAt, wordOf, ih]
  | binary hop hleft hright ihleft ihright =>
      obtain ⟨-, hhead, htest⟩ := operator_head hop
      simp [sexp, read, readAll, assemble, hhead, htest, ihleft, ihright]
  | unary hop h ih =>
      obtain ⟨-, hhead, htest⟩ := sign_head hop
      simp [sexp, read, readAll, assemble, hhead, htest, ih]
  | var name => simp [sexp, read_form, build, wordAt, wordOf]
  | int hdigits => simp [sexp, read_form, build, wordAt, wordOf]
  | @float m e h => simp [sexp, read_form, build, wordAt, wordOf, hreal m e h]
  | string cs => simp [sexp, read_form, build, wordAt, wordOf, htext]
  | bool value =>
      rw [sexp, read_form]
      cases value <;> rfl
  | index htarget hi ihtarget ihi =>
      simp [sexp, read_form, readAll, build, treeAt, ihtarget, ihi]
  | field htarget name ih => simp [sexp, read_form, readAll, build, wordAt, treeAt, wordOf, ih]
  | predicate known h ih =>
      obtain ⟨-, hhead, htest⟩ := test_head known
      simp [sexp, read, readAll, assemble, hhead, htest, ih]

end Read

/-! ## One tree for each text -/

theorem exists_real : ∃ real : Bytes → Binary64, ∀ m e, Binary64.IsCanonical m e →
    real (Binary64.finite false m e).generalForm = .finite false m e := by
  let printed (x : {x : Nat × Int // Binary64.IsCanonical x.1 x.2}) : Bytes :=
    (Binary64.finite false x.1.1 x.1.2).generalForm
  have hinjective : Function.Injective printed := by
    rintro ⟨⟨m, e⟩, hc⟩ ⟨⟨m', e'⟩, hc'⟩ h
    obtain ⟨rfl, rfl⟩ := generalForm_injective hc hc' h
    rfl
  have : Nonempty {x : Nat × Int // Binary64.IsCanonical x.1 x.2} :=
    ⟨⟨(0, Binary64.minExponent), Binary64.zero_isCanonical⟩⟩
  obtain ⟨inverse, hinverse⟩ := hinjective.hasLeftInverse
  refine ⟨fun t => .finite false (inverse t).1.1 (inverse t).1.2, fun m e hc => ?_⟩
  have hread : inverse (Binary64.finite false m e).generalForm = ⟨(m, e), hc⟩ :=
    hinverse ⟨(m, e), hc⟩
  simp only [hread]

theorem exists_text : ∃ text : Bytes → Bytes, ∀ cs, text (quoted (encode cs)) = encode cs := by
  have hinjective : Function.Injective fun cs => quoted (encode cs) := by
    intro cs cs' h
    have hquoted : quoted (encode cs) ++ [] = quoted (encode cs') ++ [] := by
      rw [List.append_nil, List.append_nil]
      exact h
    exact (quoted_cancel hquoted).1
  obtain ⟨inverse, hinverse⟩ := hinjective.hasLeftInverse
  exact ⟨fun t => encode (inverse t), fun cs => congrArg encode (hinverse cs)⟩

/-- Legible trees with the same text are the same. -/
theorem Legible.eq_of_text {n n' : Node} (h : Legible n) (h' : Legible n')
    (htext : n.sexp.text = n'.sexp.text) : n = n' := by
  obtain ⟨real, hreal⟩ := exists_real
  obtain ⟨text, hstring⟩ := exists_text
  calc n = read real text n.sexp := (h.read_eq hreal hstring).symm
    _ = read real text n'.sexp := by rw [Sexp.text_injective h.fits h'.fits htext]
    _ = n' := h'.read_eq hreal hstring

end Node

end RToJulia
