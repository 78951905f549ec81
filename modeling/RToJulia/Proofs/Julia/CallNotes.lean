import RToJulia.Proofs.Julia.Notes

/-! # Notes left by calls

Each rule for a call leaves the notes of the arguments that it writes and of the
function that its text invokes.
-/

namespace RToJulia.Julia

open Text Writer Argument
open Node (key? content isSilent namedArgs)

/-! ## Arguments -/

/-- The writer of a node leaves the notes of the nodes written with it, and its text is empty for
a silent node only. -/
def Traced (o : Options) (level : Nat) (n : Node) : Prop :=
  Leaves (fun t => t = [] ↔ isSilent n = true) (LeftBy o n) (write o n level)

theorem Traced.leaves {o : Options} {level : Nat} {n : Node} (h : Traced o level n) :
    Leaves (fun _ => True) (LeftBy o n) (write o n level) :=
  Leaves.mono h (fun _ _ => trivial) fun _ => Iff.rfl

theorem write_idle (o : Options) (n : Node) (level : Nat) : Idle (write o n level) := by
  cases n with
  | gap =>
      rw [write]
      exact .pure []
  | _ =>
      rw [write]
      exact .unlessRefused _

def argumentOf (o : Options) (level : Nat) (n : Node) : Argument :=
  ⟨key? n, content n, write o (content n) level⟩

theorem arguments_eq_map (o : Options) (args : List Node) (level : Nat) :
    arguments o args level = args.map (argumentOf o level) := by
  induction args with
  | nil => rw [arguments, List.map_nil]
  | cons n args ih =>
      have hhead : argument n (write o n level) (writeNamedValue o n level) = argumentOf o level n := by
        cases n with
        | named x value => simp only [argument, writeNamedValue, argumentOf, key?, content]
        | _ => rfl
      rw [arguments, ih, hhead, List.map_cons]

section Arguments

variable {o : Options} {level : Nat} {args : List Node}

theorem positional_of (args : List Node) :
    positional (args.map (argumentOf o level)) = (Node.positional args).map (argumentOf o level) := by
  have hkey : ((fun a : Argument => a.name.isNone) ∘ argumentOf o level) = (!·.isNamed) := by
    funext n
    cases n <;> rfl
  rw [Argument.positional, Node.positional, List.filter_map, hkey]

/-- An argument is passed by name, or its key is missing and it is not among the named ones. -/
theorem named_or_positional (n : Node) :
    (∃ x value, n = .named x value) ∨
      key? n = none ∧ ∀ args, namedArgs (n :: args) = namedArgs args := by
  cases n with
  | named x value => exact .inl ⟨x, value, rfl⟩
  | _ => exact .inr ⟨rfl, fun _ => rfl⟩

theorem named_of (args : List Node) :
    named (args.map (argumentOf o level)) =
      (namedArgs args).map fun (x, value) => (x, argumentOf o level (.named x value)) := by
  induction args with
  | nil => rfl
  | cons n args ih =>
      rcases named_or_positional n with ⟨x, value, rfl⟩ | ⟨hkey, hargs⟩
      · exact congrArg ((x, argumentOf o level (.named x value)) :: ·) ih
      · have hname : (argumentOf o level n).name.map (·, argumentOf o level n) = none := by
          rw [argumentOf, hkey]
          rfl
        rw [hargs, ← ih]
        exact List.filterMap_cons_none hname

/-- The argument found under a name is written as the value found under it. -/
theorem lookup?_of (args : List Node) (x : Bytes) :
    (lookup? (args.map (argumentOf o level)) x).map (·.write) = (Node.lookup? args x).map (write o · level) := by
  induction args with
  | nil => rfl
  | cons n args ih =>
      rw [lookup?, Node.lookup?] at ih ⊢
      rw [List.map_cons, List.find?_cons]
      rcases named_or_positional n with ⟨y, value, rfl⟩ | ⟨hkey, hargs⟩
      · have hnamed : namedArgs (.named y value :: args) = (y, value) :: namedArgs args := rfl
        have hname : (argumentOf o level (.named y value)).name = some y := rfl
        rw [hnamed, hname, List.find?_cons]
        by_cases h : y = x
        · rw [decide_eq_true h, decide_eq_true (congrArg some h)]
          rfl
        · rw [decide_eq_false h, decide_eq_false fun heq => h (Option.some.inj heq)]
          exact ih
      · have hname : (argumentOf o level n).name = none := hkey
        rw [hargs, hname]
        exact ih

theorem matrixData?_of (args : List Node) :
    ((positional (args.map (argumentOf o level))).head? <|> lookup? (args.map (argumentOf o level)) "data").map
      (·.write) = (matrixData? args).map (write o · level) := by
  rw [positional_of, matrixData?]
  cases h : Node.positional args with
  | nil => exact lookup?_of args "data"
  | cons n ns =>
      have hn : content n = n := Node.content_of_positional (h ▸ List.mem_cons_self)
      simp [argumentOf, hn]

theorem writeAll_leaves (h : ∀ n ∈ args, Traced o level (content n)) :
    Leaves (fun _ => True) (fun k => ∃ n ∈ args, LeftBy o (content n) k)
      (writeAll (args.map (argumentOf o level))) := by
  rw [writeAll, List.mapM_map]
  exact .mapM fun n hn => (h n hn).leaves

theorem writePositional_leaves (h : ∀ n ∈ args, Traced o level (content n)) :
    Leaves (fun _ => True) (fun k => ∃ p ∈ Node.positional args, LeftBy o p k)
      (writeAll (positional (args.map (argumentOf o level)))) := by
  rw [positional_of]
  refine (writeAll_leaves fun n hn => h n (List.mem_filter.mp hn).1).congr fun k => ?_
  refine exists_congr fun n => and_congr_right fun hn => ?_
  rw [Node.content_of_positional hn]

theorem writeNamed_leaves (h : ∀ n ∈ args, Traced o level (content n)) (key : Bytes → Bytes) :
    Leaves (fun _ => True) (fun k => ∃ e ∈ namedArgs args, LeftBy o e.2 k)
      (writeNamed (args.map (argumentOf o level)) key) := by
  rw [writeNamed, named_of, List.mapM_map]
  refine .mapM fun (x, value) hx => ?_
  obtain ⟨n, hn, hnx⟩ := List.mem_filterMap.mp hx
  have hvalue : content n = value := by
    cases n <;> cases hnx
    rfl
  have htraced := h n hn
  rw [hvalue] at htraced
  exact (htraced.leaves.seq fun _ => .pure fun _ => trivial).congr (by simp)

/-- An argument that is not there is written as no text, like a silent one. -/
theorem writeOptional_leaves {a? : Option Argument} {n? : Option Node}
    (heq : a?.map (·.write) = n?.map (write o · level)) (h : ∀ n ∈ n?, Traced o level n) :
    Leaves (fun t => t = [] ↔ n?.all isSilent = true) (fun k => ∃ p ∈ n?.toList, LeftBy o p k)
      (writeOptional a?) := by
  cases n? with
  | none =>
      have ha : a? = none := by simpa using heq
      subst ha
      exact (Leaves.pure (by simp)).congr (by simp)
  | some n =>
      cases a? with
      | none => exact nomatch heq
      | some a =>
          have hwrite : a.write = write o n level := Option.some.inj heq
          rw [writeOptional, hwrite]
          exact Leaves.mono (h n rfl) (fun _ h => by simpa using h) (by simp)

theorem writeOptional_idle {a? : Option Argument} {n? : Option Node}
    (heq : a?.map (·.write) = n?.map (write o · level)) : Idle (writeOptional a?) := by
  cases a? with
  | none => exact .pure []
  | some a =>
      cases n? with
      | none => exact nomatch heq
      | some n =>
          have hwrite : a.write = write o n level := Option.some.inj heq
          rw [writeOptional, hwrite]
          exact write_idle o n level

end Arguments

/-! ## Calls -/

theorem exists_leftBy_map {ι : Type} {o : Options} {f : ι → Node} {items : List ι} {k : Note} :
    (∃ i ∈ items, LeftBy o (f i) k) ↔ ∃ n ∈ items.map f, LeftBy o n k := by
  constructor
  · rintro ⟨i, hi, hu⟩
    exact ⟨f i, List.mem_map_of_mem hi, hu⟩
  · rintro ⟨_, hmap, hu⟩
    obtain ⟨i, hi, rfl⟩ := List.mem_map.mp hmap
    exact ⟨i, hi, hu⟩

theorem closed_ne_nil (s : Bytes) {t : Bytes} (ht : t ≠ []) : s ++ t ≠ [] :=
  List.append_ne_nil_of_right_ne_nil s ht

theorem lead_append {lead s : Bytes} (h : lead <+: s) (t : Bytes) : lead <+: s ++ t :=
  h.trans (List.prefix_append s t)

def matrixEnd (o : Options) (args : List Argument) (data rows cols : Bytes) : Writer Bytes :=
  let reshapes := o.matrixFallback = "reshape"
  if data = [] then
    if reshapes then return "reshape([], 0, 0)" else plainCall "matrix" args
  else if rows ≠ [] && cols ≠ [] then
    return "reshape(" ++ data ++ ", " ++ rows ++ ", " ++ cols ++ ")"
  else if rows ≠ [] then
    return "reshape(" ++ data ++ ", " ++ rows ++ ", div(length(" ++ data ++ "), " ++ rows ++ "))"
  else if cols ≠ [] then
    return "reshape(" ++ data ++ ", div(length(" ++ data ++ "), " ++ cols ++ "), " ++ cols ++ ")"
  else if reshapes then return "reshape(" ++ data ++ ", length(" ++ data ++ "), 1)"
  else plainCall "matrix" args

theorem matrixCall_eq (o : Options) (args : List Argument) :
    matrixCall o args = (do
      let data ← writeOptional ((positional args).head? <|> lookup? args "data")
      let rows ← writeOptional (lookup? args "nrow")
      let cols ← writeOptional (lookup? args "ncol")
      matrixEnd o args data rows cols) := rfl

def Stands (o : Options) (data rows cols : Prop) : Prop :=
  (data ∨ rows ∧ cols) ∧ o.matrixFallback ≠ "reshape"

theorem matrixStands_iff {o : Options} {args : List Node} :
    matrixStands o args = true ↔ Stands o ((matrixData? args).all isSilent = true)
      ((Node.lookup? args "nrow").all isSilent = true)
      ((Node.lookup? args "ncol").all isSilent = true) := by
  simp only [matrixStands, Stands, Bool.and_eq_true, Bool.or_eq_true, decide_eq_true_eq]

theorem matrixParts_leftBy {o : Options} {args : List Node} {k : Note} :
    (∃ n ∈ matrixParts o args, LeftBy o n k) ↔
      (∃ n ∈ (matrixData? args).toList, LeftBy o n k) ∨
      (∃ n ∈ (Node.lookup? args "nrow").toList, LeftBy o n k) ∨
      (∃ n ∈ (Node.lookup? args "ncol").toList, LeftBy o n k) ∨
      matrixStands o args = true ∧ ∃ n ∈ args, LeftBy o (content n) k := by
  have hparts : matrixParts o args = (matrixData? args).toList ++
      (Node.lookup? args "nrow").toList ++ (Node.lookup? args "ncol").toList ++
      if matrixStands o args then args.map content else [] := rfl
  simp only [hparts, List.mem_append, or_and_right, exists_or, or_assoc]
  refine or_congr Iff.rfl (or_congr Iff.rfl (or_congr Iff.rfl ?_))
  rw [exists_leftBy_map (f := content)]
  cases matrixStands o args <;> simp

section Calls

variable {o : Options} {level : Nat} {args : List Node} (h : ∀ n ∈ args, Traced o level (content n))

/-- What the end of a call of `matrix` leaves: the notes of all arguments when the call stands as
it is, and none when it reshapes its value. -/
def EndsMatrix (o : Options) (args : List Node) (stands : Prop) (m : Writer Bytes) : Prop :=
  Leaves (fun t => (stands → utf8 "matrix(" <+: t) ∧ (¬stands → utf8 "reshape(" <+: t))
    (fun k => stands ∧ ∃ n ∈ args, LeftBy o (content n) k) m

theorem reshaped_ends {stands : Prop} (hstands : ¬stands) {text : Bytes}
    (hlead : utf8 "reshape(" <+: text) : EndsMatrix o args stands (pure text) :=
  Leaves.congr (.pure ⟨fun hs => (hstands hs).elim, fun _ => hlead⟩) fun _ =>
    ⟨False.elim, fun hs => hstands hs.1⟩

include h

/-- A call that stands as it is writes all its arguments. -/
theorem plainCall_leaves (f : Bytes) :
    Leaves (fun t => f ++ utf8 "(" <+: t)
      (fun k => functionNote? f = some k ∨ ∃ n ∈ args, LeftBy o (content n) k)
      (plainCall f (args.map (argumentOf o level))) := by
  have hnamed : f ++ utf8 "(" <+: f ++ utf8 "(; " :=
    (List.prefix_append_right_inj f).mpr (by decide)
  refine Leaves.congr (.seq (.useFunction f) fun _ => .seq (writePositional_leaves h) fun pos =>
    .seq (V := fun _ => False) (writeNamed_leaves h _) fun kws => ?_) fun k => ?_
  · split
    · exact .pure fun _ _ _ => lead_append (List.prefix_append _ _) _
    split
    · exact .pure fun _ _ _ => lead_append (lead_append hnamed _) _
    · refine .pure fun _ _ _ => ?_
      exact lead_append (lead_append (lead_append (List.prefix_append _ _) _) _) _
  · refine or_congr Iff.rfl ?_
    simpa using (Node.exists_content_iff (p := (LeftBy o · k))).symm

theorem sequenceCall_leaves :
    Leaves (fun t => utf8 "[" <+: t) (fun k => ∃ n ∈ args, LeftBy o (content n) k)
      (sequenceCall (args.map (argumentOf o level))) := by
  have hm : Leaves (fun t => utf8 "[" <+: t) _ (sequenceCall (args.map (argumentOf o level))) :=
    .seq (writeAll_leaves h) fun _ => .pure fun _ => lead_append (List.prefix_append _ _) _
  exact hm.congr (by simp)

theorem mappingCall_leaves :
    Leaves (fun t => utf8 "Dict(" <+: t) (fun k => (∃ e ∈ namedArgs args, LeftBy o e.2 k) ∨
        o.listPositionalKeys = true ∧ ∃ n ∈ Node.positional args, LeftBy o n k)
      (mappingCall o (args.map (argumentOf o level))) := by
  have hlead : ∀ entries, utf8 "Dict(" <+: utf8 "Dict(" ++ commaList entries ++ utf8 ")" :=
    fun _ => lead_append (List.prefix_append _ _) _
  unfold mappingCall
  refine .seq (writeNamed_leaves h _) fun keyed => ?_
  cases hkeys : o.listPositionalKeys with
  | true =>
      refine (Leaves.seq (Q := fun t => _ → utf8 "Dict(" <+: t) (writePositional_leaves h)
        fun values => .pure fun _ _ => ?_).congr (by simp)
      exact hlead _
  | false => exact (Leaves.pure fun _ => hlead _).congr (by simp)

theorem printCall_leaves :
    Leaves (fun t => utf8 "println(" <+: t) (fun k => ∃ n ∈ Node.positional args, LeftBy o n k)
      (printCall (args.map (argumentOf o level))) := by
  have hm : Leaves (fun t => utf8 "println(" <+: t) _ (printCall (args.map (argumentOf o level))) :=
    .seq (writePositional_leaves h) fun _ => .pure fun _ => lead_append (List.prefix_append _ _) _
  exact hm.congr (by simp)

theorem tableCall_leaves :
    Leaves (fun t => utf8 "DataFrame(" <+: t)
      (fun k => functionNote? "DataFrame" = some k ∨ ∃ n ∈ args, LeftBy o (content n) k)
      (tableCall (args.map (argumentOf o level))) := by
  have hm : Leaves (fun t => utf8 "DataFrame(" <+: t) _
      (tableCall (args.map (argumentOf o level))) :=
    .seq (writeNamed_leaves h _) fun _ => .seq (writePositional_leaves h) fun _ =>
      .seq (.useFunction _) fun _ => .pure fun _ _ _ => lead_append (List.prefix_append _ _) _
  refine hm.congr fun k => ?_
  have hargs := @Node.exists_content_iff args (LeftBy o · k)
  constructor
  · rintro (hnamed | hpos | hown | hnone)
    · exact .inr (hargs.mpr (.inr hnamed))
    · exact .inr (hargs.mpr (.inl hpos))
    · exact .inl hown
    · exact hnone.elim
  · rintro (hown | hall)
    · exact .inr (.inr (.inl hown))
    · rcases hargs.mp hall with hpos | hnamed
      · exact .inr (.inl hpos)
      · exact .inl hnamed

theorem lookup?_traced {x : Bytes} : ∀ n ∈ Node.lookup? args x, Traced o level n := by
  intro n hn
  obtain ⟨e, he, rfl⟩ := Option.map_eq_some_iff.mp hn
  obtain ⟨a, ha, hae⟩ := List.mem_filterMap.mp (List.mem_of_find?_eq_some he)
  cases a <;> cases hae
  exact h _ ha

theorem positional_traced {n : Node} (hn : n ∈ Node.positional args) : Traced o level n := by
  have htraced := h n (List.mem_filter.mp hn).1
  rwa [Node.content_of_positional hn] at htraced

theorem matrixData?_traced : ∀ n ∈ matrixData? args, Traced o level n := by
  intro n hn
  unfold matrixData? at hn
  cases hpos : Node.positional args with
  | nil => exact lookup?_traced h n (by simpa [hpos] using hn)
  | cons a as =>
      obtain rfl : a = n := by simpa [hpos] using hn
      exact positional_traced h (hpos ▸ List.mem_cons_self)

theorem standing_ends {stands : Prop} (hstands : stands) :
    EndsMatrix o args stands (plainCall "matrix" (args.map (argumentOf o level))) := by
  refine Leaves.mono (plainCall_leaves h "matrix") (fun t ht => ⟨fun _ => ht, fun hs => (hs hstands).elim⟩)
    fun k => ⟨?_, fun hs => .inr hs.2⟩
  rintro (hown | hall)
  · exact nomatch hown
  · exact ⟨hstands, hall⟩

/-- Whether the call stands is told by the empty texts. -/
theorem matrixEnd_leaves (data rows cols : Bytes) :
    EndsMatrix o args (Stands o (data = []) (rows = []) (cols = []))
      (matrixEnd o (args.map (argumentOf o level)) data rows cols) := by
  have hlead : ∀ rest, utf8 "reshape(" <+: utf8 "reshape(" ++ rest := List.prefix_append _
  unfold matrixEnd
  dsimp only
  split
  · rename_i hd
    split
    · rename_i hf
      exact reshaped_ends (fun hs => hs.2 hf) (by decide)
    · rename_i hf
      exact standing_ends h ⟨.inl hd, hf⟩
  rename_i hd
  split
  · refine reshaped_ends (by simp_all [Stands]) ?_
    simp only [List.append_assoc, hlead]
  split
  · refine reshaped_ends (by simp_all [Stands]) ?_
    simp only [List.append_assoc, hlead]
  split
  · refine reshaped_ends (by simp_all [Stands]) ?_
    simp only [List.append_assoc, hlead]
  split
  · rename_i hf
    refine reshaped_ends (fun hs => hs.2 hf) ?_
    simp only [List.append_assoc, hlead]
  · rename_i hf
    exact standing_ends h ⟨.inr (by simp_all), hf⟩

omit h in
theorem matrixEnd_idle (data rows cols : Bytes) :
    Idle (matrixEnd o (args.map (argumentOf o level)) data rows cols) := by
  have hplain : Idle (plainCall "matrix" (args.map (argumentOf o level))) := by
    have hwrite : ∀ a ∈ args.map (argumentOf o level), Idle a.write := by
      intro a ha
      obtain ⟨n, -, rfl⟩ := List.mem_map.mp ha
      exact write_idle o (content n) level
    refine .bind (.useFunction (by decide)) fun _ => ?_
    refine .bind (.mapM fun a ha => hwrite a (List.mem_filter.mp ha).1) fun pos => ?_
    refine .bind (.mapM fun e he => ?_) fun kws => ?_
    · obtain ⟨a, ha, hae⟩ := List.mem_filterMap.mp he
      obtain ⟨x, -, rfl⟩ := Option.map_eq_some_iff.mp hae
      exact .bind (hwrite a ha) fun _ => .pure _
    · split
      · exact .pure _
      split
      · exact .pure _
      · exact .pure _
  unfold matrixEnd
  dsimp only
  repeat' split
  all_goals first
    | exact .pure _
    | exact hplain

/-- `matrix` writes the value and the sizes, and all arguments again when it stands as it is:
whether it does is told by the empty texts, and so by the silent nodes. -/
theorem matrixCall_leaves :
    Leaves (fun t => callLead o "matrix" args <+: t)
      (fun k => ∃ n ∈ matrixParts o args, LeftBy o n k)
      (matrixCall o (args.map (argumentOf o level))) := by
  have hdata := writeOptional_leaves (matrixData?_of args) (matrixData?_traced h)
  have hrows := writeOptional_leaves (lookup?_of args "nrow") (lookup?_traced h)
  have hcols := writeOptional_leaves (lookup?_of args "ncol") (lookup?_traced h)
  have hrowsIdle := writeOptional_idle (@lookup?_of o level args "nrow")
  have hcolsIdle := writeOptional_idle (@lookup?_of o level args "ncol")
  have hlead : callLead o "matrix" args =
      (if matrixStands o args then utf8 "matrix" else utf8 "reshape") ++ utf8 "(" := rfl
  have hstands := @matrixStands_iff o args
  rw [matrixCall_eq]
  simp only [matrixParts_leftBy, hlead, matrixStands_iff]
  generalize Node.lookup? args "nrow" = rows? at hrows hstands ⊢
  generalize Node.lookup? args "ncol" = cols? at hcols hstands ⊢
  refine .bind
    (T := fun data k => (∃ n ∈ rows?.toList, LeftBy o n k) ∨ (∃ n ∈ cols?.toList, LeftBy o n k) ∨
      Stands o (data = []) (rows?.all isSilent = true) (cols?.all isSilent = true) ∧
        ∃ n ∈ args, LeftBy o (content n) k)
    hdata (fun data => ?_) ?_ fun data => .bind hrowsIdle fun rows => .bind hcolsIdle fun cols =>
      matrixEnd_idle data rows cols
  · refine .bind (T := fun rows k => (∃ n ∈ cols?.toList, LeftBy o n k) ∨
        Stands o (data = []) (rows = []) (cols?.all isSilent = true) ∧
          ∃ n ∈ args, LeftBy o (content n) k)
      hrows (fun rows => ?_) ?_ fun rows => .bind hcolsIdle fun cols => matrixEnd_idle data rows cols
    · refine .bind (T := fun cols k => Stands o (data = []) (rows = []) (cols = []) ∧
          ∃ n ∈ args, LeftBy o (content n) k)
        hcols (fun cols => ?_) ?_ fun cols => matrixEnd_idle data rows cols
      · refine (matrixEnd_leaves h data rows cols).mono (fun t ht hc hr hd => ?_) fun _ => Iff.rfl
        rw [hd, hr, hc] at ht
        split
        · rename_i hs
          exact ht.1 (hstands.mp hs)
        · rename_i hs
          exact ht.2 fun hs' => hs (hstands.mpr hs')
      · intro cols hc k
        rw [hc]
    · intro rows hr k
      rw [hr]
  · intro data hd k
    rw [hd]

theorem existsCall_leaves :
    Leaves (fun t => callLead o "exists" args <+: t)
      (fun k => callNote? o "exists" args = some k ∨ ∃ n ∈ callParts o "exists" args, LeftBy o n k)
      (existsCall (args.map (argumentOf o level))) := by
  rw [existsCall, positional_of]
  cases hpos : Node.positional args with
  | nil =>
      have hparts : callParts o "exists" args = args.map content := by
        unfold callParts
        rw [hpos]
        rfl
      have hinvoked : invoked? o "exists" args = some (utf8 "exists") := by
        unfold invoked?
        rw [hpos]
        rfl
      simp only [hparts, callLead, callNote?, hinvoked]
      exact (plainCall_leaves h "exists").congr fun _ => or_congr Iff.rfl exists_leftBy_map
  | cons n ns =>
      have hparts : callParts o "exists" args = [n] := by
        unfold callParts
        rw [hpos]
        rfl
      have hinvoked : invoked? o "exists" args = some (utf8 "isdefined") := by
        unfold invoked?
        rw [hpos]
        rfl
      have hnote : functionNote? "isdefined" = none := rfl
      simp only [hparts, callLead, callNote?, hinvoked, Option.bind_some, hnote]
      have hn : n ∈ Node.positional args := hpos ▸ List.mem_cons_self
      have hlead : ∀ rest, utf8 "isdefined" ++ utf8 "(" <+: utf8 "isdefined(Main, Symbol(" ++ rest :=
        fun rest => lead_append (by decide) rest
      have hsymbol : Leaves (fun t => utf8 "isdefined" ++ utf8 "(" <+: t) _
          (do return "isdefined(Main, Symbol(" ++ (← write o n level) ++ "))" : Writer Bytes) :=
        .seq (positional_traced h hn).leaves fun _ => .pure fun _ => lead_append (hlead _) _
      simp only [List.map_cons, argumentOf, Node.content_of_positional hn]
      split
      · rename_i x
        split
        · have hmain : utf8 "isdefined" ++ utf8 "(" <+: utf8 "isdefined(Main, :" := by decide
          refine Leaves.congr (.pure (lead_append (lead_append hmain _) _)) fun k => ?_
          simp [leftBy_iff (n := .string x), ownNote?, ownRecord?, parts]
        · exact hsymbol.congr (by simp)
      · exact hsymbol.congr (by simp)

/-- A call leaves the notes of the arguments that its rule writes and of the function that its
text begins with. -/
theorem writeCall_leaves (f : Bytes) :
    Leaves (fun t => callLead o f args <+: t)
      (fun k => callNote? o f args = some k ∨ ∃ n ∈ callParts o f args, LeftBy o n k)
      (writeCall o f (args.map (argumentOf o level))) := by
  have hown : ∀ {f P} {U : Note → Prop} {m : Writer Bytes}, callNote? o f args = none →
      Leaves P U m → Leaves P (fun k => callNote? o f args = some k ∨ U k) m :=
    fun hnone hm => hm.congr fun k => by simp [hnone]
  unfold writeCall
  split
  · subst f
    exact hown rfl ((sequenceCall_leaves h).congr fun _ => exists_leftBy_map)
  rename_i hc
  split
  · subst f
    refine hown rfl ((mappingCall_leaves h).congr fun k => ?_)
    have hparts : callParts o "list" args =
        (namedArgs args).map (·.2) ++ if o.listPositionalKeys then Node.positional args else [] := rfl
    rw [hparts, exists_leftBy_map]
    simp only [List.mem_append, or_and_right, exists_or]
    cases o.listPositionalKeys <;> simp
  rename_i hlist
  split
  · subst f
    refine hown ?_ (matrixCall_leaves h)
    change (some (if matrixStands o args then utf8 "matrix" else utf8 "reshape")).bind functionNote? = none
    split <;> rfl
  rename_i hmatrix
  split
  · subst f
    exact hown rfl (printCall_leaves h)
  rename_i hprint
  split
  · subst f
    exact existsCall_leaves h
  rename_i hexists
  have hparts : callParts o f args = args.map content := by
    simp only [callParts, hc, hlist, hmatrix, hprint, hexists, if_false]
  have hinvoked : invoked? o f args =
      some ((renamed? f).getD (if (utf8 "data.frame").isPrefixOf f then utf8 "DataFrame" else f)) := by
    simp only [invoked?, hc, hlist, hmatrix, hprint, hexists, if_false]
  have hplain : ∀ g, Leaves (fun t => g ++ utf8 "(" <+: t)
      (fun k => functionNote? g = some k ∨ ∃ n ∈ args.map content, LeftBy o n k)
      (plainCall g (args.map (argumentOf o level))) :=
    fun g => (plainCall_leaves h g).congr fun _ => or_congr Iff.rfl exists_leftBy_map
  simp only [callLead, callNote?, hparts, hinvoked, Option.bind_some]
  cases renamed? f with
  | some g => exact hplain g
  | none =>
      dsimp only [Option.getD_none]
      split
      · exact (tableCall_leaves h).congr fun _ => or_congr Iff.rfl exists_leftBy_map
      · exact hplain f

end Calls

end RToJulia.Julia
