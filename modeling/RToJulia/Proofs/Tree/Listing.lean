import RToJulia.Proofs.Tree.WellFormed

/-! # The marks of a tree

A mark is what a token says, apart from the line it stands on. A tree is listed as
the marks of its keywords, names, operators, literals, commas and brackets, in the
order in which a source has them. Tokens that only group have no place in it.

An element that is assigned by the name of a field is listed like one assigned by
the name as a string, since the two have the same tree.
-/

namespace RToJulia

inductive Mark where
  | name (lexeme : Bytes)
  | operator (lexeme : Bytes)
  | literal (kind : Kind) (value : Option Literal)
  /-- Either arrow of an assignment. -/
  | arrow
  | word (kind : Kind)
  deriving DecidableEq, Repr

def Kind.isGrouping : Kind → Bool
  | newline | semicolon | leftParen | rightParen | leftBrace | rightBrace => true
  | _ => false

def Token.mark (t : Token) : Mark :=
  match t.kind with
  | .ident => .name t.lexeme
  | .integer | .float | .string | .bool => .literal t.kind t.literal
  | .backArrow | .equal => .arrow
  | kind =>
      if (Grammar.level? kind).isSome || kind = .bang then .operator t.lexeme else .word kind

/-- The marks of a token list, those that only group left out. -/
def marks (ts : List Token) : List Mark :=
  (ts.filter (!·.kind.isGrouping)).map Token.mark

namespace Mark

def separated : List (List Mark) → List Mark
  | [] => []
  | [item] => item
  | item :: items => item ++ word .comma :: separated items

/-- The marks with each `$name` that an arrow follows as `["name"]`. -/
def keyed : List Mark → List Mark
  | word .dollar :: name x :: arrow :: rest =>
      word .leftBracket :: literal .string (some (.text x)) :: word .rightBracket :: arrow ::
        keyed rest
  | m :: rest => m :: keyed rest
  | [] => []

end Mark

namespace Node

mutual

def listing : Node → List Mark
  | gap => []
  | program ss | block ss => (listings ss).flatten
  | assign x value => .name x :: .arrow :: listing value
  | assignIndex target i value =>
      listing target ++ .word .leftBracket :: listing i ++ .word .rightBracket :: .arrow ::
        listing value
  | exprStmt e => listing e
  | ifElse cond yes no => .word .kwIf :: listing cond ++ bodyListing yes ++ elseListing no
  | whileLoop cond body => .word .kwWhile :: listing cond ++ bodyListing body
  | forLoop x start stop body =>
      .word .kwFor :: .name x :: .word .kwIn ::
        (if start.isGap then listing stop else listing start ++ .operator ":" :: listing stop) ++
        bodyListing body
  | function x params body =>
      .name x :: .arrow :: .word .kwFunction :: Mark.separated (params.map fun p => [.name p]) ++
        bodyListing body
  | operator op cls params body =>
      .name (0x60 :: (op ++ 0x2e :: cls ++ [0x60])) :: .arrow :: .word .kwFunction ::
        Mark.separated (params.map fun p => [.name p]) ++ bodyListing body
  | ret value => .word .kwReturn :: listing value
  | call f args => .name f :: Mark.separated (listings args)
  | named x value => .name x :: .arrow :: listing value
  | binary op left right => listing left ++ .operator op :: listing right
  | unary op operand => .operator op :: listing operand
  | var x => [.name x]
  | int digits => [.literal .integer (some (.text digits))]
  | float value => [.literal .float (some (.real value))]
  | string value => [.literal .string (some (.text value))]
  | bool value => [.literal .bool (some (.truth value))]
  | index target i => listing target ++ .word .leftBracket :: listing i ++ [.word .rightBracket]
  | field target x => listing target ++ [.word .dollar, .name x]
  | predicate test e => .name test.name :: listing e

def listings : List Node → List (List Mark)
  | [] => []
  | n :: ns => listing n :: listings ns

def bodyListing : Option (List Node) → List Mark
  | none => []
  | some ss => (listings ss).flatten

def elseListing : Option (List Node) → List Mark
  | none => []
  | some ss => .word .kwElse :: (listings ss).flatten

end

end Node

/-! ## Fields as keys -/

namespace Mark

theorem keyed_cons {m : Mark} {rest : List Mark} (h : m ≠ word .dollar) :
    keyed (m :: rest) = m :: keyed rest := by
  rw [keyed]
  rintro x rest rfl
  exact absurd rfl h

/-- A mark that continues no field splits the marks. -/
theorem keyed_append {a b : List Mark} (hname : ∀ x, b.head? ≠ some (name x))
    (harrow : b.head? ≠ some arrow) : keyed (a ++ b) = keyed a ++ keyed b := by
  fun_induction keyed a with
  | case1 x rest ih => simp [keyed, ih]
  | case2 m rest hfield ih =>
      rw [List.cons_append, List.cons_append, keyed, ih]
      -- A field that is completed by `b` would have to begin there with a name or an arrow.
      intro x tail hm htail
      rcases rest with _ | ⟨second, _ | ⟨third, rest⟩⟩
      · exact hname x (by simp [show b = name x :: arrow :: tail from htail])
      · rw [List.cons_append, List.cons.injEq] at htail
        exact harrow (by simp [show b = arrow :: tail from htail.2])
      · rw [List.cons_append, List.cons_append, List.cons.injEq, List.cons.injEq] at htail
        obtain ⟨hsecond, hthird, -⟩ := htail
        exact hfield x rest hm (by rw [hsecond, hthird])
  | case3 => rfl

/-- Marks that can stand for each other between any others. -/
def Same (a b : List Mark) : Prop :=
  ∀ front rest, keyed (front ++ a ++ rest) = keyed (front ++ b ++ rest)

namespace Same

variable {a b c d : List Mark}

theorem refl (a : List Mark) : Same a a := fun _ _ => rfl

theorem of_eq (h : a = b) : Same a b := h ▸ refl a

theorem trans (h₁ : Same a b) (h₂ : Same b c) : Same a c :=
  fun front rest => (h₁ front rest).trans (h₂ front rest)

theorem append (h₁ : Same a b) (h₂ : Same c d) : Same (a ++ c) (b ++ d) := by
  intro front rest
  calc keyed (front ++ (a ++ c) ++ rest) = keyed (front ++ a ++ (c ++ rest)) := by simp
    _ = keyed (front ++ b ++ (c ++ rest)) := h₁ front (c ++ rest)
    _ = keyed ((front ++ b) ++ c ++ rest) := by simp
    _ = keyed ((front ++ b) ++ d ++ rest) := h₂ (front ++ b) rest
    _ = keyed (front ++ (b ++ d) ++ rest) := by simp

/-- An assigned field is an assigned element. -/
theorem field (x : Bytes) :
    Same [word .dollar, name x, arrow]
      [word .leftBracket, literal .string (some (.text x)), word .rightBracket, arrow] := by
  intro front rest
  have hfield : keyed (front ++ word .dollar :: name x :: arrow :: rest) =
      keyed front ++ keyed (word .dollar :: name x :: arrow :: rest) :=
    keyed_append (by simp) (by simp)
  have helement :
      keyed (front ++ word .leftBracket :: literal .string (some (.text x)) ::
        word .rightBracket :: arrow :: rest) =
      keyed front ++ keyed (word .leftBracket :: literal .string (some (.text x)) ::
        word .rightBracket :: arrow :: rest) :=
    keyed_append (by simp) (by simp)
  simp [hfield, helement, keyed]

end Same

end Mark

/-! ## Listings hold no assigned field -/

/-- Marks in which no field is assigned, unless an arrow follows them. -/
structure Mark.Settled (ms : List Mark) : Prop where
  lead : ms.head? ≠ some arrow
  keyed : ∀ rest : List Mark, rest.head? ≠ some arrow → Mark.keyed (ms ++ rest) = ms ++ Mark.keyed rest

namespace Mark.Settled

variable {a b : List Mark}

/-- Settled marks are what all marks like them become. -/
theorem keyed_of_same (hb : Settled b) (h : Same a b) : Mark.keyed a = b := by
  have hnil := hb.keyed [] (by simp)
  rw [List.append_nil, Mark.keyed, List.append_nil] at hnil
  have hsame := h [] []
  rw [List.nil_append, List.append_nil, List.nil_append, List.append_nil] at hsame
  exact hsame.trans hnil

theorem nil : Settled [] := ⟨by simp, fun _ _ => rfl⟩

theorem append (ha : Settled a) (hb : Settled b) : Settled (a ++ b) := by
  have hlead : ∀ rest : List Mark, rest.head? ≠ some arrow → (b ++ rest).head? ≠ some arrow := by
    intro rest hr
    cases b with
    | nil => exact hr
    | cons m b => simpa using hb.lead
  refine ⟨?_, fun rest hr => ?_⟩
  · cases a with
    | nil => exact hb.lead
    | cons m a => simpa using ha.lead
  · rw [List.append_assoc, ha.keyed _ (hlead rest hr), hb.keyed rest hr, List.append_assoc]

theorem cons {m : Mark} (ha : Settled a) (hd : m ≠ word .dollar) (hm : m ≠ arrow) :
    Settled (m :: a) := by
  refine ⟨by simpa using hm, fun rest hr => ?_⟩
  rw [List.cons_append, keyed_cons hd, ha.keyed rest hr, List.cons_append]

/-- An arrow stands behind a mark of the same listing. -/
theorem cons_arrow {m : Mark} (ha : Settled a) (hd : m ≠ word .dollar) (hm : m ≠ arrow) :
    Settled (m :: arrow :: a) := by
  refine ⟨by simpa using hm, fun rest hr => ?_⟩
  rw [List.cons_append, keyed_cons hd, List.cons_append, keyed_cons (by simp), ha.keyed rest hr]
  rfl

theorem field (x : Bytes) : Settled [word .dollar, name x] := by
  refine ⟨by simp, fun rest hr => ?_⟩
  have hname : Mark.keyed (name x :: rest) = name x :: Mark.keyed rest := keyed_cons (by simp)
  rw [List.cons_append, List.cons_append, List.nil_append, Mark.keyed, hname]
  · rfl
  · intro y tail _ htail
    rw [List.cons.injEq] at htail
    exact hr (by simp [htail.2])

theorem flatten {items : List (List Mark)} (h : ∀ item ∈ items, Settled item) :
    Settled items.flatten := by
  induction items with
  | nil => exact nil
  | cons item items ih => exact (h item (by simp)).append (ih fun i hi => h i (by simp [hi]))

theorem separated {items : List (List Mark)} (h : ∀ item ∈ items, Settled item) :
    Settled (separated items) := by
  induction items with
  | nil => exact nil
  | cons item items ih =>
      have hitem := h item (by simp)
      have hrest := ih fun i hi => h i (by simp [hi])
      cases items with
      | nil => exact hitem
      | cons second items => exact hitem.append (hrest.cons (by simp) (by simp))

theorem names (params : List Bytes) : Settled (Mark.separated (params.map fun p => [name p])) := by
  apply separated
  intro item hi
  obtain ⟨p, -, rfl⟩ := List.mem_map.mp hi
  exact nil.cons (by simp) (by simp)

end Mark.Settled

namespace Node

open Mark

mutual

theorem listing_settled : ∀ n : Node, Settled (listing n)
  | gap => by
      rw [listing]
      exact .nil
  | program ss | block ss => by
      rw [listing]
      exact .flatten (listings_settled ss)
  | assign x value | named x value => by
      rw [listing]
      exact (listing_settled value).cons_arrow (by simp) (by simp)
  | assignIndex target i value => by
      have hvalue := (listing_settled value).cons_arrow (m := word .rightBracket) (by simp) (by simp)
      have hi := (listing_settled i).cons (m := word .leftBracket) (by simp) (by simp)
      rw [listing]
      exact ((listing_settled target).append hi).append hvalue
  | exprStmt e => by
      rw [listing]
      exact listing_settled e
  | ifElse cond yes no => by
      have hcond := (listing_settled cond).cons (m := word .kwIf) (by simp) (by simp)
      rw [listing]
      exact (hcond.append (bodyListing_settled yes)).append (elseListing_settled no)
  | whileLoop cond body => by
      have hcond := (listing_settled cond).cons (m := word .kwWhile) (by simp) (by simp)
      rw [listing]
      exact hcond.append (bodyListing_settled body)
  | forLoop x start stop body => by
      have hstop := listing_settled stop
      have hrange := (listing_settled start).append (hstop.cons (m := .operator ":") (by simp) (by simp))
      have hover : Settled (if start.isGap then listing stop
          else listing start ++ Mark.operator ":" :: listing stop) := by
        split
        · exact hstop
        · exact hrange
      rw [listing]
      exact (((hover.cons (m := word .kwIn) (by simp) (by simp)).cons (m := name x) (by simp)
        (by simp)).cons (m := word .kwFor) (by simp) (by simp)).append (bodyListing_settled body)
  | function x params body => by
      rw [listing]
      exact (((Settled.names params).cons (by simp) (by simp)).cons_arrow (by simp) (by simp)).append
        (bodyListing_settled body)
  | Node.operator op cls params body => by
      rw [listing]
      exact (((Settled.names params).cons (by simp) (by simp)).cons_arrow (by simp) (by simp)).append
        (bodyListing_settled body)
  | ret value => by
      rw [listing]
      exact (listing_settled value).cons (by simp) (by simp)
  | call f args => by
      rw [listing]
      exact (Settled.separated (listings_settled args)).cons (by simp) (by simp)
  | binary op left right => by
      rw [listing]
      exact (listing_settled left).append ((listing_settled right).cons (by simp) (by simp))
  | unary op operand => by
      rw [listing]
      exact (listing_settled operand).cons (by simp) (by simp)
  | var _ | int _ | float _ | string _ | bool _ => by
      rw [listing]
      exact Settled.nil.cons (by simp) (by simp)
  | index target i => by
      have hi := (listing_settled i).cons (m := word .leftBracket) (by simp) (by simp)
      have hclose := Settled.nil.cons (m := word .rightBracket) (by simp) (by simp)
      rw [listing]
      exact ((listing_settled target).append hi).append hclose
  | field target x => by
      rw [listing]
      exact (listing_settled target).append (.field x)
  | predicate test e => by
      rw [listing]
      exact (listing_settled e).cons (by simp) (by simp)

theorem listings_settled : ∀ ns : List Node, ∀ item ∈ listings ns, Settled item
  | [], _, h => by simp [listings] at h
  | n :: ns, item, h => by
      have hn := listing_settled n
      have hns := listings_settled ns
      rw [listings] at h
      rcases List.mem_cons.mp h with rfl | h
      · exact hn
      · exact hns item h

theorem bodyListing_settled : ∀ body : Option (List Node), Settled (bodyListing body)
  | none => by
      rw [bodyListing]
      exact .nil
  | some ss => by
      rw [bodyListing]
      exact .flatten (listings_settled ss)

theorem elseListing_settled : ∀ no : Option (List Node), Settled (elseListing no)
  | none => by
      rw [elseListing]
      exact .nil
  | some ss => by
      rw [elseListing]
      exact (Settled.flatten (listings_settled ss)).cons (by simp) (by simp)

end

theorem listings_eq_map (ns : List Node) : listings ns = ns.map listing := by
  induction ns with
  | nil => rw [listings, List.map_nil]
  | cons n ns ih => rw [listings, ih, List.map_cons]

end Node

end RToJulia
