import RToJulia.Files.Batch

/-! # Joined paths

A path joined of a directory and a name has the components of the directory, once
`.` and `..` are carried out, and then the name.  The Julia file of a source has
its name up to the extension, so only two sources of a directory can share one.
-/

namespace RToJulia

open Text

namespace Path

structure IsFileName (name : Bytes) : Prop where
  ne_nil : name ≠ []
  slash_free : slash ∉ name
  ne_here : name ≠ utf8 "."
  ne_above : name ≠ utf8 ".."

instance : DecidablePred IsFileName := fun name =>
  decidable_of_iff (name ≠ [] ∧ slash ∉ name ∧ name ≠ utf8 "." ∧ name ≠ utf8 "..")
    ⟨fun ⟨h₁, h₂, h₃, h₄⟩ => ⟨h₁, h₂, h₃, h₄⟩, fun h => ⟨h.1, h.2, h.3, h.4⟩⟩

/-! ## Components -/

theorem exists_splitAt (b : UInt8) (p : Bytes) : ∃ part parts, splitAt b p = part :: parts := by
  induction p with
  | nil => exact ⟨[], [], rfl⟩
  | cons c p ih =>
      obtain ⟨part, parts, heq⟩ := ih
      by_cases hc : c = b <;> simp [splitAt, heq, hc]

theorem splitAt_self (b : UInt8) (p : Bytes) : splitAt b (b :: p) = [] :: splitAt b p := by
  obtain ⟨part, parts, heq⟩ := exists_splitAt b p
  simp [splitAt, heq]

theorem splitAt_append (b : UInt8) (p q : Bytes) :
    splitAt b (p ++ b :: q) = splitAt b p ++ splitAt b q := by
  induction p with
  | nil => exact splitAt_self b q
  | cons c p ih =>
      obtain ⟨part, parts, heq⟩ := exists_splitAt b p
      rw [List.cons_append, splitAt, splitAt, ih, heq]
      by_cases hc : c = b <;> simp [hc]

theorem splitAt_of_not_mem {b : UInt8} {p : Bytes} (h : b ∉ p) : splitAt b p = [p] := by
  induction p with
  | nil => rfl
  | cons c p ih =>
      rw [List.mem_cons, not_or] at h
      simp [splitAt, ih h.2, Ne.symm h.1]

theorem not_mem_of_mem_splitAt {b : UInt8} {p part : Bytes} (h : part ∈ splitAt b p) :
    b ∉ part := by
  induction p generalizing part with
  | nil => simp_all [splitAt]
  | cons c p ih =>
      obtain ⟨first, parts, heq⟩ := exists_splitAt b p
      rw [heq] at ih
      rw [splitAt, heq] at h
      by_cases hc : c = b
      · simp only [hc, if_true, List.mem_cons] at h
        rcases h with rfl | h
        · simp
        · exact ih (List.mem_cons.mpr h)
      · simp only [hc, if_false, List.mem_cons] at h
        rcases h with rfl | h
        · have hfirst : b ∉ first := ih List.mem_cons_self
          simp [Ne.symm hc, hfirst]
        · exact ih (List.mem_cons_of_mem _ h)

theorem components_append (p q : Bytes) :
    components (p ++ slash :: q) = components p ++ components q := by
  simp [components, splitAt_append]

theorem components_slash (p : Bytes) : components (slash :: p) = components p :=
  components_append [] p

theorem components_name {name : Bytes} (hne : name ≠ []) (hslash : slash ∉ name) :
    components name = [name] := by
  simp [components, splitAt_of_not_mem hslash, hne]

theorem mem_components {p c : Bytes} (h : c ∈ components p) : c ≠ [] ∧ slash ∉ c := by
  unfold components at h
  rw [List.mem_filter] at h
  exact ⟨by simpa using h.2, not_mem_of_mem_splitAt h.1⟩

/-! ## Carrying out `.` and `..` -/

/-- The components that are left once `.` and `..` are carried out. -/
def resolved (rooted : Bool) (cs : List Bytes) : List Bytes :=
  (cs.foldl (enter rooted) []).reverse

/-- What entering a component does: nothing, one component more, or one less. -/
theorem enter_cases (rooted : Bool) (above : List Bytes) (c : Bytes) :
    (c = utf8 "." ∧ enter rooted above c = above) ∨
    (c ≠ utf8 "." ∧ enter rooted above c = c :: above) ∨
    (c = utf8 ".." ∧ rooted = true ∧ above = [] ∧ enter rooted above c = []) ∨
    (c = utf8 ".." ∧ ∃ last rest, above = last :: rest ∧ last ≠ utf8 ".." ∧
      enter rooted above c = rest) := by
  unfold enter
  by_cases hhere : c = utf8 "."
  · simp [hhere]
  · by_cases habove : c = utf8 ".."
    · cases above with
      | nil => cases rooted <;> simp [habove, show utf8 ".." ≠ utf8 "." by decide]
      | cons last rest =>
          by_cases hlast : last = utf8 ".." <;>
            simp [habove, hlast, show utf8 ".." ≠ utf8 "." by decide]
    · simp [hhere, habove]

theorem mem_enter {rooted : Bool} {above : List Bytes} {c x : Bytes}
    (h : x ∈ enter rooted above c) : x ∈ above ∨ x = c := by
  rcases enter_cases rooted above c with ⟨-, heq⟩ | ⟨-, heq⟩ | ⟨-, -, rfl, heq⟩ |
    ⟨-, last, rest, rfl, -, heq⟩
  · exact .inl (heq ▸ h)
  · rw [heq, List.mem_cons] at h
    exact h.symm
  · exact .inl (heq ▸ h)
  · exact .inl (List.mem_cons_of_mem _ (heq ▸ h))

theorem mem_foldl_enter {rooted : Bool} {cs above : List Bytes} {x : Bytes}
    (h : x ∈ cs.foldl (enter rooted) above) : x ∈ above ∨ x ∈ cs := by
  induction cs generalizing above with
  | nil => exact .inl h
  | cons c cs ih =>
      rcases ih h with h | h
      · rcases mem_enter h with h | rfl
        · exact .inl h
        · exact .inr List.mem_cons_self
      · exact .inr (List.mem_cons_of_mem _ h)

theorem mem_resolved {rooted : Bool} {cs : List Bytes} {x : Bytes} (h : x ∈ resolved rooted cs) :
    x ∈ cs := by
  rcases mem_foldl_enter (List.mem_reverse.mp h) with h | h
  · cases h
  · exact h

theorem resolved_name {name : Bytes} (h : IsFileName name) (rooted : Bool) (cs : List Bytes) :
    resolved rooted (cs ++ [name]) = resolved rooted cs ++ [name] := by
  simp [resolved, List.foldl_append, enter, h.ne_here, h.ne_above]

/-! ## Names in a directory -/

def lead (directory : Bytes) : Bytes :=
  (if isRooted directory then [slash] else []) ++
    (resolved (isRooted directory) (components directory)).flatMap (· ++ [slash])

theorem intercalate_concat (cs : List Bytes) (name : Bytes) :
    List.intercalate [slash] (cs ++ [name]) = cs.flatMap (· ++ [slash]) ++ name := by
  induction cs with
  | nil => simp
  | cons c cs ih =>
      cases cs with
      | nil => simp [List.intercalate_cons_cons]
      | cons c' cs =>
          rw [List.cons_append, List.cons_append, List.intercalate_cons_cons, ← List.cons_append,
            ih]
          simp

theorem join_name {directory name : Bytes} (hdir : directory ≠ []) (hname : IsFileName name) :
    join [directory, name] = lead directory ++ name := by
  have hkept : [directory, name].filter (· ≠ []) = [directory, name] := by
    simp [hdir, hname.ne_nil]
  have hrooted : isRooted (directory ++ slash :: name) = isRooted directory := by
    cases directory with
    | nil => exact absurd rfl hdir
    | cons b rest => rfl
  have hpath : List.intercalate [slash] [directory, name] = directory ++ slash :: name := by
    simp [List.intercalate_cons_cons]
  have hparts : ((components (directory ++ slash :: name)).foldl (enter (isRooted directory))
      []).reverse = resolved (isRooted directory) (components directory) ++ [name] := by
    rw [components_append, components_name hname.ne_nil hname.slash_free]
    exact resolved_name hname _ _
  unfold join clean lead
  simp only [hkept, hpath, hrooted, hparts, intercalate_concat]
  by_cases h : isRooted directory = true
  · simp [h]
  · simp [h, hname.ne_nil]

theorem components_flatMap {cs : List Bytes} (h : ∀ c ∈ cs, c ≠ [] ∧ slash ∉ c) (q : Bytes) :
    components (cs.flatMap (· ++ [slash]) ++ q) = cs ++ components q := by
  induction cs with
  | nil => rfl
  | cons c cs ih =>
      have hc := h c List.mem_cons_self
      have hsplit : (c :: cs).flatMap (· ++ [slash]) ++ q =
          c ++ slash :: (cs.flatMap (· ++ [slash]) ++ q) := by simp
      rw [hsplit, components_append, components_name hc.1 hc.2,
        ih fun x hx => h x (List.mem_cons_of_mem _ hx)]
      rfl

/-- The components of a name in a directory. -/
theorem components_lead (directory : Bytes) {name : Bytes} (hname : IsFileName name) :
    components (lead directory ++ name) =
      resolved (isRooted directory) (components directory) ++ [name] := by
  have hbody : components ((resolved (isRooted directory) (components directory)).flatMap
      (· ++ [slash]) ++ name) = resolved (isRooted directory) (components directory) ++ [name] := by
    rw [components_flatMap fun c hc => mem_components (mem_resolved hc),
      components_name hname.ne_nil hname.slash_free]
  unfold lead
  by_cases h : isRooted directory = true
  · simp only [h, if_true] at hbody ⊢
    exact (components_slash _).trans hbody
  · simp only [h] at hbody ⊢
    exact hbody

theorem isRooted_of_slash_free {c : Bytes} (hne : c ≠ []) (hslash : slash ∉ c) (q : Bytes) :
    isRooted (c ++ q) = false := by
  cases c with
  | nil => exact absurd rfl hne
  | cons b rest =>
      rw [List.mem_cons, not_or] at hslash
      simp [isRooted, Ne.symm hslash.1]

/-- A name in a directory is rooted as the directory is. -/
theorem isRooted_lead (directory : Bytes) {name : Bytes} (hname : IsFileName name) :
    isRooted (lead directory ++ name) = isRooted directory := by
  unfold lead
  by_cases h : isRooted directory = true
  · rw [if_pos h, h]
    rfl
  · rw [Bool.not_eq_true] at h
    have hparts : ∀ c ∈ resolved false (components directory), c ≠ [] ∧ slash ∉ c :=
      fun c hc => mem_components (mem_resolved hc)
    simp only [h]
    cases hcs : resolved false (components directory) with
    | nil => simpa using isRooted_of_slash_free hname.ne_nil hname.slash_free []
    | cons c cs =>
        rw [hcs] at hparts
        have hc := hparts c List.mem_cons_self
        simpa using isRooted_of_slash_free hc.1 hc.2 (slash :: (cs.flatMap (· ++ [slash]) ++ name))

theorem getLast?_lead (directory : Bytes) {name : Bytes} (hname : IsFileName name) :
    (lead directory ++ name).getLast? ≠ some slash := by
  intro hlast
  rw [List.getLast?_append, List.getLast?_eq_some_getLast hname.ne_nil, Option.some_or] at hlast
  exact hname.slash_free (Option.some.inj hlast ▸ List.getLast_mem hname.ne_nil)

theorem base_lead (directory : Bytes) {name : Bytes} (hname : IsFileName name) :
    base (lead directory ++ name) = name := by
  simp [base, components_lead directory hname]

/-! ## Sources and their Julia files -/

def outputName (name : Bytes) : Bytes :=
  dropTail (extension name) name ++ utf8 ".jl"

theorem extension_append (stem : Bytes) {tail : Bytes} (h : 0x2e ∉ tail) :
    extension (stem ++ 0x2e :: tail) = 0x2e :: tail := by
  have hall : ∀ b ∈ tail.reverse, (b != 0x2e) = true := by
    intro b hb
    rw [List.mem_reverse] at hb
    simp only [bne_iff_ne, ne_eq]
    rintro rfl
    exact h hb
  have hrev : (stem ++ 0x2e :: tail).reverse = tail.reverse ++ 0x2e :: stem.reverse := by simp
  unfold extension
  rw [hrev, List.takeWhile_append_of_pos hall]
  simp

theorem exists_extension {name : Bytes} (h : extension name ≠ []) :
    ∃ stem tail, name = stem ++ 0x2e :: tail ∧ 0x2e ∉ tail := by
  have hmem : (0x2e : UInt8) ∈ name.reverse := by
    rw [List.mem_reverse]
    simpa [extension] using h
  obtain ⟨front, back, heq, hfront⟩ := List.eq_append_cons_of_mem hmem
  refine ⟨back.reverse, front.reverse, ?_, by simpa using hfront⟩
  have hname := congrArg List.reverse heq
  simpa using hname

theorem dropTail_append (stem tail : Bytes) : dropTail tail (stem ++ tail) = stem := by
  simp [dropTail]

theorem outputName_append (stem : Bytes) {tail : Bytes} (h : 0x2e ∉ tail) :
    outputName (stem ++ 0x2e :: tail) = stem ++ utf8 ".jl" := by
  unfold outputName
  rw [extension_append stem h, dropTail_append]

theorem lowerByte_eq_r {b : UInt8} (h : lowerByte b = 0x72) : b = 0x52 ∨ b = 0x72 := by
  unfold lowerByte at h
  split at h
  · left
    have hb : b + 0x20 - 0x20 = 0x72 - 0x20 := by rw [h]
    simpa using hb
  · exact .inr h

/-- The names of sources. -/
theorem isSourceName_iff {name : Bytes} :
    isSourceName name = true ↔ ∃ stem, name = stem ++ utf8 ".R" ∨ name = stem ++ utf8 ".r" := by
  unfold isSourceName
  rw [decide_eq_true_iff]
  constructor
  · intro h
    have hne : extension name ≠ [] := by
      intro hnil
      rw [hnil] at h
      exact absurd h (by decide)
    obtain ⟨stem, tail, rfl, htail⟩ := exists_extension hne
    rw [extension_append stem htail] at h
    have hmap : tail.map lowerByte = [0x72] := List.tail_eq_of_cons_eq h
    obtain ⟨b, rfl, hb⟩ := List.map_eq_singleton_iff.mp hmap
    rcases lowerByte_eq_r hb with rfl | rfl
    · exact ⟨stem, .inl rfl⟩
    · exact ⟨stem, .inr rfl⟩
  · rintro ⟨stem, rfl | rfl⟩
    · rw [show utf8 ".R" = 0x2e :: [0x52] by decide, extension_append stem (by decide)]
      decide
    · rw [show utf8 ".r" = 0x2e :: [0x72] by decide, extension_append stem (by decide)]
      decide

theorem outputName_upper (stem : Bytes) :
    outputName (stem ++ utf8 ".R") = stem ++ utf8 ".jl" :=
  outputName_append stem (by decide)

theorem outputName_lower (stem : Bytes) :
    outputName (stem ++ utf8 ".r") = stem ++ utf8 ".jl" :=
  outputName_append stem (by decide)

theorem exists_outputName {name : Bytes} (hsource : isSourceName name = true) :
    ∃ stem, outputName name = stem ++ utf8 ".jl" ∧
      (name = stem ++ utf8 ".R" ∨ name = stem ++ utf8 ".r") := by
  obtain ⟨stem, rfl | rfl⟩ := isSourceName_iff.mp hsource
  · exact ⟨stem, outputName_upper stem, .inl rfl⟩
  · exact ⟨stem, outputName_lower stem, .inr rfl⟩

/-- A Julia file is no source. -/
theorem isSourceName_outputName {name : Bytes} (hsource : isSourceName name = true) :
    isSourceName (outputName name) = false := by
  obtain ⟨stem, heq, -⟩ := exists_outputName hsource
  have hext : extension (stem ++ utf8 ".jl") = utf8 ".jl" := extension_append stem (by decide)
  unfold isSourceName
  rw [heq, hext]
  decide

theorem isFileName_outputName {name : Bytes} (hname : IsFileName name)
    (hsource : isSourceName name = true) : IsFileName (outputName name) := by
  obtain ⟨stem, heq, hstem⟩ := exists_outputName hsource
  have hslash : slash ∉ stem := by
    intro hmem
    refine hname.slash_free ?_
    rcases hstem with rfl | rfl <;> exact List.mem_append_left _ hmem
  have hlong : 3 ≤ (stem ++ utf8 ".jl").length := by
    rw [List.length_append]
    exact Nat.le_add_left _ _
  rw [heq]
  constructor
  · intro hnil
    simp [hnil] at hlong
  · rw [List.mem_append, not_or]
    exact ⟨hslash, by decide⟩
  · intro hhere
    rw [hhere] at hlong
    exact absurd hlong (by decide)
  · intro habove
    rw [habove] at hlong
    exact absurd hlong (by decide)

end Path

end RToJulia
