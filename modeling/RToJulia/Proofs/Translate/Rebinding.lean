import RToJulia.Proofs.Grammar.Soundness
import RToJulia.Proofs.Julia.Bindings
import RToJulia.Proofs.Julia.Increments
import RToJulia.Translate

/-!
# Variables rebound by a loop

The names that stand in the `let` around a `while` loop are those that a walk over the statements of
its body finds, and the variable that its condition compares.  The walk goes through blocks, branches,
loops, conditions, ranges and the values of assignments.  It does not see what is rebound elsewhere:
by an assignment inside another expression, and by an element with a string key, whose text makes the
variable a new dictionary.
-/

namespace RToJulia.Julia

open Text Node

/-! ## The walk -/

def walked : Node → List Node
  | .assign _ value => [value]
  | .block ss => ss
  | .exprStmt e => [e]
  | .ifElse cond yes no => cond :: (yes.getD [] ++ no.getD [])
  | .whileLoop cond body => cond :: body.getD []
  | .forLoop _ start stop body => start :: stop :: body.getD []
  | _ => []

inductive Assigns : Node → Bytes → Prop
  | own {y : Bytes} {value : Node} : Assigns (.assign y value) (unquote y)
  | part {n p : Node} {x : Bytes} (mem : p ∈ walked n) (h : Assigns p x) : Assigns n x

theorem assigns_iff {n : Node} {x : Bytes} :
    Assigns n x ↔ (∃ y value, n = .assign y value ∧ x = unquote y) ∨ ∃ p ∈ walked n, Assigns p x := by
  constructor
  · rintro (_ | ⟨mem, h⟩)
    · exact .inl ⟨_, _, rfl, rfl⟩
    · exact .inr ⟨_, mem, h⟩
  · rintro (⟨y, value, rfl, rfl⟩ | ⟨p, mem, h⟩)
    · exact .own
    · exact .part mem h

mutual

/-- The names collected from a node are those that the walk finds. -/
theorem mem_assigned_iff : ∀ (n : Node) (names : List Bytes), assigned n = .ok names →
    ∀ x, x ∈ names.map unquote ↔ Assigns n x
  | .assign y value, names, h, x => by
      rw [assigned] at h
      obtain ⟨vs, hvs, hnames⟩ := except_bind_ok h
      cases hnames
      have hvalue := mem_assigned_iff value vs hvs x
      rw [assigns_iff, List.map_cons, List.mem_cons, hvalue]
      simp [walked]
  | .block ss, names, h, x => by
      rw [assigned] at h
      rw [mem_assignedAll_iff ss names h x, assigns_iff]
      simp [walked]
  | .ifElse cond yes no, names, h, x => by
      rw [assigned] at h
      obtain ⟨cs, hcs, h⟩ := except_bind_ok h
      obtain ⟨ys, hys, h⟩ := except_bind_ok h
      obtain ⟨ns, hns, h⟩ := except_bind_ok h
      cases h
      rw [assigns_iff, List.map_append, List.map_append, List.mem_append, List.mem_append,
        mem_assigned_iff cond cs hcs x, mem_assignedBody_iff yes ys hys x,
        mem_assignedElse_iff no ns hns x]
      simp [walked, or_and_right, exists_or, or_assoc]
  | .whileLoop cond body, names, h, x => by
      rw [assigned] at h
      obtain ⟨cs, hcs, h⟩ := except_bind_ok h
      obtain ⟨bs, hbs, h⟩ := except_bind_ok h
      cases h
      rw [assigns_iff, List.map_append, List.mem_append, mem_assigned_iff cond cs hcs x,
        mem_assignedBody_iff body bs hbs x]
      simp [walked]
  | .forLoop y start stop body, names, h, x => by
      rw [assigned] at h
      obtain ⟨as, has, h⟩ := except_bind_ok h
      obtain ⟨es, hes, h⟩ := except_bind_ok h
      obtain ⟨bs, hbs, h⟩ := except_bind_ok h
      cases h
      rw [assigns_iff, List.map_append, List.map_append, List.mem_append, List.mem_append,
        mem_assigned_iff start as has x, mem_assigned_iff stop es hes x,
        mem_assignedBody_iff body bs hbs x]
      simp [walked, or_assoc]
  | .exprStmt e, names, h, x => by
      rw [assigned] at h
      rw [mem_assigned_iff e names h x, assigns_iff (n := .exprStmt e)]
      simp [walked]
  | .gap, _, h, x | .program _, _, h, x | .assignIndex .., _, h, x
  | .function .., _, h, x | .operator .., _, h, x | .ret _, _, h, x
  | .call .., _, h, x | .named .., _, h, x | .binary .., _, h, x
  | .unary .., _, h, x | .var _, _, h, x | .int _, _, h, x | .float _, _, h, x
  | .string _, _, h, x | .bool _, _, h, x | .index .., _, h, x | .field .., _, h, x
  | .predicate .., _, h, x => by
      simp only [assigned, pure, Except.pure, Except.ok.injEq] at h
      subst h
      rw [assigns_iff]
      simp [walked]

theorem mem_assignedAll_iff : ∀ (ss : List Node) (names : List Bytes), assignedAll ss = .ok names →
    ∀ x, x ∈ names.map unquote ↔ ∃ s ∈ ss, Assigns s x
  | [], names, h, x => by
      rw [assignedAll] at h
      cases h
      simp
  | s :: ss, names, h, x => by
      rw [assignedAll] at h
      obtain ⟨ns, hns, h⟩ := except_bind_ok h
      obtain ⟨ms, hms, h⟩ := except_bind_ok h
      cases h
      rw [List.map_append, List.mem_append, mem_assigned_iff s ns hns x,
        mem_assignedAll_iff ss ms hms x]
      simp

theorem mem_assignedBody_iff : ∀ (body : Option (List Node)) (names : List Bytes),
    assignedBody body = .ok names →
      ∀ x, x ∈ names.map unquote ↔ ∃ s ∈ body.getD [], Assigns s x
  | none, _, h, _ => by
      rw [assignedBody] at h
      cases h
  | some ss, names, h, x => by
      rw [assignedBody] at h
      exact mem_assignedAll_iff ss names h x

theorem mem_assignedElse_iff : ∀ (body : Option (List Node)) (names : List Bytes),
    assignedElse body = .ok names →
      ∀ x, x ∈ names.map unquote ↔ ∃ s ∈ body.getD [], Assigns s x
  | none, names, h, x => by
      rw [assignedElse] at h
      cases h
      simp
  | some ss, names, h, x => by
      rw [assignedElse] at h
      exact mem_assignedAll_iff ss names h x

end

/-! ## Names listed once -/

theorem mem_firsts_iff {x : Bytes} {names : List Bytes} : x ∈ firsts names ↔ x ∈ names := by
  refine ⟨mem_of_mem_firsts, fun h => ?_⟩
  induction names with
  | nil => exact h
  | cons n ns ih =>
      rw [firsts, List.mem_cons, List.mem_filter]
      by_cases hn : x = n
      · exact .inl hn
      · exact .inr ⟨ih ((List.mem_cons.mp h).resolve_left hn), by simpa using hn⟩

theorem firsts_nodup (names : List Bytes) : (firsts names).Nodup := by
  induction names with
  | nil => exact List.nodup_nil
  | cons n ns ih =>
      rw [firsts, List.nodup_cons]
      exact ⟨fun h => by simpa using (List.mem_filter.mp h).2, ih.filter _⟩

/-! ## Text that rebinds -/

def isDeclaration : Node → Bool
  | .function .. | .operator .. => true
  | _ => false

/-- The text of a node assigns to a variable as a whole, outside of declarations: it does so at the
front of an assignment to the variable or to one of its elements. -/
inductive Rebinds (o : Options) : Node → Bytes → Prop
  | assign {y : Bytes} {value : Node} {level : Nat} {w w' : Work} {text : Bytes}
      (run : write o (.assign y value) level w = .ok (text, w'))
      (lead : unquote y ++ utf8 " = " <+: text) : Rebinds o (.assign y value) (unquote y)
  | element {y : Bytes} {index value : Node} {level : Nat} {w w' : Work} {text : Bytes}
      (run : write o (.assignIndex (.var y) index value) level w = .ok (text, w'))
      (lead : unquote y ++ utf8 " = " <+: text) :
      Rebinds o (.assignIndex (.var y) index value) (unquote y)
  | part {n p : Node} {x : Bytes} (scope : isDeclaration n = false) (mem : p ∈ parts o n)
      (h : Rebinds o p x) : Rebinds o n x

/-- A node with text that the walk does not go through: an element, a record that is constructed, and
an expression that is no assignment. -/
def isSealed : Node → Bool
  | .assign _ value => (constructed? value).isSome
  | .assignIndex .. | .ret _ | .call .. | .binary .. | .unary .. | .index .. | .field ..
  | .predicate .. => true
  | _ => false

/-- The text of a node rebinds a variable where the walk does not go: in front of an element, or
inside of a sealed node. -/
inductive Hidden (o : Options) : Node → Bytes → Prop
  | element {y : Bytes} {index value : Node} {level : Nat} {w w' : Work} {text : Bytes}
      (run : write o (.assignIndex (.var y) index value) level w = .ok (text, w'))
      (lead : unquote y ++ utf8 " = " <+: text) :
      Hidden o (.assignIndex (.var y) index value) (unquote y)
  | inside {n p : Node} {x : Bytes} (shut : isSealed n = true) (mem : p ∈ parts o n)
      (h : Rebinds o p x) : Hidden o n x
  | part {n p : Node} {x : Bytes} (mem : p ∈ walked n) (h : Hidden o p x) : Hidden o n x

/-- The walk goes through all that is written inside of a node that is not sealed. -/
theorem mem_walked {o : Options} {n p : Node} (scope : isDeclaration n = false)
    (hn : isSealed n = false) (mem : p ∈ parts o n) : p ∈ walked n := by
  cases n with
  | assign y value =>
      -- of a value that is constructed only one argument is written, which is not walked
      have hnone : constructed? value = none := by simpa [isSealed] using hn
      simpa [parts, hnone, walked] using mem
  | block | exprStmt | ifElse | whileLoop | forLoop => exact mem
  | function | operator => cases scope
  | assignIndex | ret | call | binary | unary | index | field | predicate => cases hn
  | gap | program | named | var | int | float | string | bool => cases mem

theorem assigns_or_hidden {o : Options} {n : Node} {x : Bytes} (h : Rebinds o n x) :
    Assigns n x ∨ Hidden o n x := by
  induction h with
  | assign run lead => exact .inl .own
  | element run lead => exact .inr (.element run lead)
  | @part n p x scope mem h ih =>
      cases hn : isSealed n with
      | true => exact .inr (.inside hn mem h)
      | false =>
          have hp := mem_walked scope hn mem
          exact ih.imp (.part hp) (.part hp)

/-! ## The text of a loop -/

def loopLead (names : List Bytes) : Bytes :=
  if names = [] then "while "
  else "let " ++ commaList (names.map fun n => n ++ " = " ++ n) ++ "\n"

theorem unlessRefused_clean {m : Writer Bytes} {w w' : Work} {text : Bytes}
    (h : Writer.unlessRefused m w = .ok (text, w')) (hw' : w'.unsupported = none) :
    m w = .ok (text, w') := by
  change (if w.unsupported.isSome then pure [] else m) w = .ok (text, w') at h
  split at h
  · rename_i hw
    cases h
    rw [hw'] at hw
    cases hw
  · exact h

theorem lead_joinLines {line : Bytes} (hline : line ≠ []) (lines : List Bytes) :
    line <+: joinLines (line :: lines) := by
  rw [joinLines_cons, below, if_neg hline]
  split
  · exact List.prefix_rfl
  · rw [List.append_assoc]
    exact List.prefix_append _ _

theorem line_joinLines {line last : Bytes} (hline : line ≠ []) (hlast : last ≠ []) (middle : Bytes) :
    line ++ utf8 "\n" <+: joinLines [line, middle, last] := by
  have hrest : joinLines [middle, last] ≠ [] := by
    rw [joinLines_cons, below]
    split
    · exact joinLines_ne_nil hlast _
    · rw [if_neg (joinLines_ne_nil hlast _)]
      simp [show utf8 "\n" ≠ [] by decide]
  rw [joinLines_cons, below, if_neg hline, if_neg hrest]
  exact List.prefix_append _ _

theorem writeWhile_lead {o : Options} {level : Nat} {cond body : Writer Bytes} {w w' : Work}
    {text : Bytes} (h : writeWhile o level cond body w = .ok (text, w')) :
    utf8 "while " <+: text := by
  obtain ⟨c, w₁, -, h⟩ := bind_run_cases h
  obtain ⟨b, w₂, -, h⟩ := bind_run_cases h
  obtain ⟨spaces, w₃, -, h⟩ := bind_run_cases h
  cases h
  exact (List.prefix_append _ c).trans (lead_joinLines (by simp [show utf8 "while " ≠ [] by decide]) _)

theorem writeLet_lead {o : Options} {level : Nat} {names : List Bytes} {loop : Writer Bytes}
    {w w' : Work} {text : Bytes} (h : writeLet o level names loop w = .ok (text, w')) :
    utf8 "let " ++ commaList (names.map fun n => n ++ " = " ++ n) ++ utf8 "\n" <+: text := by
  obtain ⟨inner, w₁, -, h⟩ := bind_run_cases h
  obtain ⟨t, w₂, -, h⟩ := bind_run_cases h
  obtain ⟨spaces, w₃, -, h⟩ := bind_run_cases h
  cases h
  exact line_joinLines (by simp [show utf8 "let " ≠ [] by decide])
    (by simp [show utf8 "end" ≠ [] by decide]) _

theorem write_loop_lead {o : Options} {cond : Node} {body : Body} {names : List Bytes} {level : Nat}
    {w w' : Work} {text : Bytes} (hnames : loopBindings cond body = .ok names)
    (h : write o (.whileLoop cond body) level w = .ok (text, w')) (hw' : w'.unsupported = none) :
    loopLead names <+: text := by
  rw [write] at h
  have hrun := unlessRefused_clean h hw'
  rw [hnames] at hrun
  change (if names = [] then _ else _ : Writer Bytes) w = .ok (text, w') at hrun
  unfold loopLead
  split at hrun
  · rename_i hnil
    rw [if_pos hnil]
    exact writeWhile_lead hrun
  · rename_i hne
    rw [if_neg hne]
    exact writeLet_lead hrun

/-- The names around a loop: each once, those that the walk over the body finds and the compared
variable. -/
theorem loopBindings_spec {cond : Node} {statements : List Node} {names : List Bytes}
    (h : loopBindings cond (some statements) = .ok names) : names.Nodup ∧ ∀ x, x ∈ names ↔
      (∃ s ∈ statements, Assigns s x) ∨ x ∈ (comparedVar cond).map unquote := by
  obtain ⟨found, hfound, h⟩ := except_bind_ok h
  cases h
  refine ⟨firsts_nodup _, fun x => ?_⟩
  rw [mem_firsts_iff, List.map_append, List.mem_append, mem_assignedBody_iff _ _ hfound x]
  rfl

/-- The `let` around a loop lists each of its names once, and lists every variable that the text of
the body rebinds where the walk goes. -/
theorem loop_names_listed {source : Bytes} {ss : List Node} {cond : Node} {body : Body} (o : Options)
    (hparse : parseSource source = .ok ss) (hloop : Occurs (.program ss) (.whileLoop cond body)) :
    ∃ statements names, body = some statements ∧ loopBindings cond body = .ok names ∧ names.Nodup ∧
      (∀ x, x ∈ names ↔ (∃ s ∈ statements, Assigns s x) ∨ x ∈ (comparedVar cond).map unquote) ∧
      (∀ s ∈ statements, ∀ x, Rebinds o s x → x ∈ names ∨ Hidden o s x) ∧
      ∀ level w text w', write o (.whileLoop cond body) level w = .ok (text, w') →
        w'.unsupported = none → loopLead names <+: text := by
  have hbody : isBody body = true := by
    have hpart := hloop.isPart (parse_wellFormed hparse)
    simp only [isPart, isStatement, isExpr, isNamedExpr, Bool.or_false, Bool.and_eq_true] at hpart
    exact hpart.2
  obtain ⟨found, hfound⟩ := assignedBody_ok body hbody
  obtain ⟨names, hnames⟩ : ∃ names, loopBindings cond body = .ok names := by
    rw [loopBindings, hfound]
    exact ⟨_, rfl⟩
  cases body with
  | none => cases hbody
  | some statements =>
      obtain ⟨hnodup, hmem⟩ := loopBindings_spec hnames
      refine ⟨statements, names, rfl, hnames, hnodup, hmem, fun s hs x hx => ?_,
        fun level w text w' h hw' => write_loop_lead hnames h hw'⟩
      exact (assigns_or_hidden hx).imp_left fun hx => (hmem x).mpr (.inl ⟨s, hs, hx⟩)

theorem loop_names_listed_branches :
    let source : Bytes := "while (go) if (c) b <- i <- a else for (q in 1:2) b <- q"
    let branches : Node := .ifElse (.var "c") (some [.assign "b" (.assign "i" (.var "a"))])
      (some [.forLoop "q" (.int "1") (.int "2") (some [.assign "b" (.var "q")])])
    let loop : Node := .whileLoop (.var "go") (some [branches])
    parseSource source = .ok [loop] ∧ Rebinds {} branches "i" ∧
      (utf8 "i" ∈ [utf8 "b", utf8 "i"] ∨ Hidden {} branches "i") ∧
      ∀ level w text w', write {} loop level w = .ok (text, w') → w'.unsupported = none →
        utf8 "let b = b, i = i\n" <+: text := by
  intro source branches loop
  have hparse : parseSource source = .ok [loop] := rfl
  have hloop : Occurs (.program [loop]) loop := .child .root List.mem_cons_self
  have hnames : loopBindings (.var "go") (some [branches]) = .ok [utf8 "b", utf8 "i"] := rfl
  let start : Work := { records := [], packages := [] }
  have hassign : write {} (.assign "i" (.var "a")) 0 start = .ok (utf8 "i = a", start) := rfl
  have hrebinds : Rebinds {} branches "i" :=
    .part rfl (List.mem_cons_of_mem _ List.mem_cons_self)
      (.part rfl List.mem_cons_self (.assign hassign ⟨utf8 "a", rfl⟩))
  obtain ⟨statements, names, hbody, hlisted, -, -, hall, htext⟩ := loop_names_listed {} hparse hloop
  cases hbody
  cases hnames.symm.trans hlisted
  exact ⟨hparse, hrebinds, hall branches List.mem_cons_self _ hrebinds, htext⟩

/-- A dictionary that is made in a loop is not listed, nor is a variable that is assigned in the value
of an element. -/
theorem dictionary_not_listed :
    let cond : Node := .binary "<" (.var "i") (.int "3")
    let made : Node := .assignIndex (.var "d") (.string "k") (.var "i")
    let chained : Node := .assignIndex (.var "v") (.int "1") (.assign "j" (.var "i"))
    parseSource "while (i < 3) d[\"k\"] <- i" = .ok [.whileLoop cond (some [made])] ∧
      Rebinds {} made "d" ∧ loopBindings cond (some [made]) = .ok [utf8 "i"] ∧
      parseSource "while (i < 3) v[1] <- j <- i" = .ok [.whileLoop cond (some [chained])] ∧
      Rebinds {} chained "j" ∧ loopBindings cond (some [chained]) = .ok [utf8 "i"] := by
  intro cond made chained
  let start : Work := { records := [], packages := [] }
  have hmade : write {} made 0 start = .ok (utf8 "d = Dict(); d[\"k\"] = i", start) := rfl
  have hassign : write {} (.assign "j" (.var "i")) 0 start = .ok (utf8 "j = i", start) := rfl
  refine ⟨rfl, .element hmade ⟨utf8 "Dict(); d[\"k\"] = i", rfl⟩, rfl, rfl, ?_, rfl⟩
  exact .part rfl (by simp [parts, chained]) (.assign hassign ⟨utf8 "i", rfl⟩)

end RToJulia.Julia
