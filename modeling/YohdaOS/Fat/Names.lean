import YohdaOS.Bst
import YohdaOS.Fat.Core

/-!
# Finding directories by name

`fat_insert_comp` and `fat_search_comp` order the nodes of the tree by `strcmp`, which compares the
names as far as the shorter one goes: a name and a longer one that begins with it compare equal.
-/

namespace YohdaOS.Fat

/-- The characters of a string, without the terminator. -/
structure CString where
  chars : List Byte
  nonzero : (0 : Byte) ∉ chars
deriving DecidableEq

/-- `*s` -/
def CString.head (s : CString) : Byte := s.chars.headD 0

/-- The loop of `strcmp` over the characters both strings have; a `char` is signed. -/
def strcmpLoop : List Byte → List Byte → ℤ
  | c :: s₁, d :: s₂ => if c.toInt - d.toInt ≠ 0 then c.toInt - d.toInt else strcmpLoop s₁ s₂
  | _, _ => 0

def strcmp (s₁ s₂ : CString) : ℤ :=
  let len := min s₁.chars.length s₂.chars.length
  if len = 0 then s₁.head.toInt - s₂.head.toInt else strcmpLoop s₁.chars s₂.chars

/-- A `struct fat_dir` at its address. -/
structure FatDir where
  ptr : ℕ
  name : CString
deriving DecidableEq

def fatSearchComp (root : FatDir) (name : CString) : BstDir :=
  let diff := strcmp name root.name
  if diff ≠ 0 then if diff < 0 then .left else .right else .isMatch

def fatInsertComp (root nw : FatDir) : BstDir :=
  if root.name.head = 0 ∨ nw.name.head = 0 then .isMatch
  else
    let diff := strcmp nw.name root.name
    if diff ≠ 0 then if diff < 0 then .left else .right else .isMatch

/-- The tree of one directory. -/
def dirRoot (root : FatDir) : Bst FatDir := .node root .nil .nil

/-- The tree after the directories have been inserted one after another. -/
def insertDirs (t : Bst FatDir) : List FatDir → Bst FatDir
  | [] => t
  | d :: dirs => insertDirs (bstInsert t d fatInsertComp).2 dirs

/-- Every insertion returns the node inserted. -/
def AllInserted (t : Bst FatDir) : List FatDir → Prop
  | [] => True
  | d :: dirs => (bstInsert t d fatInsertComp).1 = some d ∧
      AllInserted (bstInsert t d fatInsertComp).2 dirs

/-- Every insertion succeeds, every name inserted is found, and the name `u` is found only if it was
inserted. -/
def NamesFound (root : FatDir) (dirs : List FatDir) (u : CString) : Prop :=
  AllInserted (dirRoot root) dirs ∧
    (∀ d ∈ dirs, bstSearch (insertDirs (dirRoot root) dirs) d.name fatSearchComp = some d) ∧
      ((∀ d ∈ dirs, d.name ≠ u) → bstSearch (insertDirs (dirRoot root) dirs) u fatSearchComp = none)

/-- One of the names begins with the other. -/
def CString.Related (s t : CString) : Prop := s.chars <+: t.chars ∨ t.chars <+: s.chars

instance (s t : CString) : Decidable (s.Related t) := inferInstanceAs (Decidable (_ ∨ _))

/-! ## strcmp -/

theorem toInt_sub_eq_zero {c d : Byte} : c.toInt - d.toInt = 0 ↔ c = d := by
  rw [sub_eq_zero, BitVec.toInt_inj]

/-- The loop finds no difference when one list of characters begins with the other. -/
theorem strcmpLoop_eq_zero {s t : List Byte} : strcmpLoop s t = 0 ↔ s <+: t ∨ t <+: s := by
  induction s generalizing t with
  | nil => simp [strcmpLoop]
  | cons c s ih =>
    cases t with
    | nil => simp [strcmpLoop]
    | cons d t =>
      rw [strcmpLoop, List.cons_prefix_cons, List.cons_prefix_cons]
      by_cases hcd : c = d
      · rw [if_neg (not_not.2 (toInt_sub_eq_zero.2 hcd)), ih]
        simp [hcd]
      · have hne : c.toInt - d.toInt ≠ 0 := fun h => hcd (toInt_sub_eq_zero.1 h)
        have hdc : d ≠ c := fun h => hcd h.symm
        rw [if_pos hne]
        simp [hne, hcd, hdc]

/-- A difference found is found again after the first string has been continued. -/
theorem strcmpLoop_of_isPrefix {s s' t : List Byte} (h : s <+: s') (hne : strcmpLoop s t ≠ 0) :
    strcmpLoop s' t = strcmpLoop s t := by
  induction s generalizing s' t with
  | nil => exact absurd (strcmpLoop_eq_zero.2 (Or.inl List.nil_prefix)) hne
  | cons c s ih =>
    cases t with
    | nil => exact absurd (strcmpLoop_eq_zero.2 (Or.inr List.nil_prefix)) hne
    | cons d t =>
      cases s' with
      | nil => cases List.prefix_nil.1 h
      | cons c' s' =>
        rw [List.cons_prefix_cons] at h
        obtain ⟨rfl, h⟩ := h
        rw [strcmpLoop, strcmpLoop]
        rw [strcmpLoop] at hne
        split_ifs at hne ⊢ with hcd
        · rfl
        · exact ih h hne

namespace CString

theorem chars_eq_nil_of_head {s : CString} (h : s.head = 0) : s.chars = [] := by
  obtain ⟨chars, hnonzero⟩ := s
  cases chars with
  | nil => rfl
  | cons c s => exact absurd (h ▸ List.mem_cons_self) hnonzero

theorem head_ne_zero {s : CString} (h : s.chars ≠ []) : s.head ≠ 0 :=
  fun h0 => h (chars_eq_nil_of_head h0)

theorem Related.symm {s t : CString} (h : s.Related t) : t.Related s := Or.symm h

end CString

variable {s s' t : CString}

theorem min_length_eq_zero : min s.chars.length t.chars.length = 0 ↔ s.chars = [] ∨ t.chars = [] := by
  rw [← List.length_eq_zero_iff, ← List.length_eq_zero_iff]
  unfold YohdaOS.min
  split_ifs <;> omega

theorem strcmp_eq_loop (hs : s.chars ≠ []) (ht : t.chars ≠ []) :
    strcmp s t = strcmpLoop s.chars t.chars := by
  apply if_neg
  rw [min_length_eq_zero]
  exact not_or.2 ⟨hs, ht⟩

/-- Names that are not empty compare equal when they are related. -/
theorem strcmp_eq_zero (hs : s.chars ≠ []) (ht : t.chars ≠ []) :
    strcmp s t = 0 ↔ s.Related t := by
  rw [strcmp_eq_loop hs ht]
  exact strcmpLoop_eq_zero

/-- The empty string differs from every name. -/
theorem strcmp_nil (hs : s.chars = []) (ht : t.chars ≠ []) : strcmp s t ≠ 0 := by
  have heq : strcmp s t = s.head.toInt - t.head.toInt := if_pos (min_length_eq_zero.2 (Or.inl hs))
  have hhead : s.head = 0 := by rw [CString.head, hs, List.headD_nil]
  rw [heq, hhead]
  exact fun h => CString.head_ne_zero ht (toInt_sub_eq_zero.1 h).symm

/-! ## The comparisons -/

theorem fatSearchComp_eq_match {root : FatDir} :
    fatSearchComp root s = .isMatch ↔ strcmp s root.name = 0 := by
  unfold fatSearchComp
  simp only
  split_ifs with hne hlt
  · exact iff_of_false (by decide) hne
  · exact iff_of_false (by decide) hne
  · exact iff_of_true rfl (not_not.1 hne)

/-- Strings that compare alike with a node go the same way there. -/
theorem fatSearchComp_congr {root : FatDir} (h : strcmp s root.name = strcmp s' root.name) :
    fatSearchComp root s = fatSearchComp root s' := by
  rw [fatSearchComp, fatSearchComp, h]

/-- Nodes with names are inserted where their names are searched for. -/
theorem fatInsertComp_eq {root nw : FatDir} (hroot : root.name.chars ≠ [])
    (hnw : nw.name.chars ≠ []) : fatInsertComp root nw = fatSearchComp root nw.name := by
  rw [fatInsertComp, if_neg]
  · rfl
  · rw [not_or]
    exact ⟨CString.head_ne_zero hroot, CString.head_ne_zero hnw⟩

/-! ## The tree -/

/-- The directories in the tree: they have names, none begins with another, and each is found. -/
structure Names (t : Bst FatDir) (dirs : List FatDir) : Prop where
  mem : ∀ a, t.Mem a → a ∈ dirs
  nonempty : ∀ a ∈ dirs, a.name.chars ≠ []
  apart : ∀ a ∈ dirs, ∀ b ∈ dirs, a.name.Related b.name → a = b
  found : ∀ a ∈ dirs, bstSearch t a.name fatSearchComp = some a

variable {tree : Bst FatDir} {dirs : List FatDir} {d : FatDir}

/-- A name related to none in the tree is not found. -/
theorem Names.search_none (h : Names tree dirs) (hs : s.chars ≠ [])
    (hapart : ∀ a ∈ dirs, ¬s.Related a.name) : bstSearch tree s fatSearchComp = none := by
  rw [Option.eq_none_iff_forall_ne_some]
  intro a ha
  obtain ⟨hmem, hmatch⟩ := bstFind_eq_some ha
  have hdirs := h.mem a hmem
  rw [fatSearchComp_eq_match, strcmp_eq_zero hs (h.nonempty a hdirs)] at hmatch
  exact hapart a hdirs hmatch

/-- The search for a name related to one in the tree stops at a node. -/
theorem Names.search_some (h : Names tree dirs) (hs : s.chars ≠ []) {b : FatDir} (hb : b ∈ dirs)
    (hrel : s.Related b.name) : ∃ a, bstSearch tree s fatSearchComp = some a := by
  have hbne := h.nonempty b hb
  apply bstFind_of_follows (h.found b hb)
  intro a ha
  have hdirs := h.mem a ha
  have hane := h.nonempty a hdirs
  by_cases hmatch : s.Related a.name
  · left
    rwa [fatSearchComp_eq_match, strcmp_eq_zero hs hane]
  · right
    apply fatSearchComp_congr
    rw [strcmp_eq_loop hs hane, strcmp_eq_loop hbne hane]
    rcases hrel with hpre | hpre
    · -- the string is shorter: it differs from the node within its own length
      have hne : strcmpLoop s.chars a.name.chars ≠ 0 := fun h0 => hmatch (strcmpLoop_eq_zero.1 h0)
      exact (strcmpLoop_of_isPrefix hpre hne).symm
    · have hne : strcmpLoop b.name.chars a.name.chars ≠ 0 := by
        intro h0
        obtain rfl := h.apart b hb a hdirs (strcmpLoop_eq_zero.1 h0)
        exact hmatch (Or.inr hpre)
      exact strcmpLoop_of_isPrefix hpre hne

theorem Names.search_empty (h : Names tree dirs) (hs : s.chars = []) :
    bstSearch tree s fatSearchComp = none := by
  rw [Option.eq_none_iff_forall_ne_some]
  intro a ha
  obtain ⟨hmem, hmatch⟩ := bstFind_eq_some ha
  rw [fatSearchComp_eq_match] at hmatch
  exact strcmp_nil hs (h.nonempty a (h.mem a hmem)) hmatch

/-- A string that is not one of the names is not found exactly when it is empty or related to none of
them. -/
theorem Names.search_none_iff (h : Names tree dirs) (s : CString) :
    bstSearch tree s fatSearchComp = none ↔ s.chars = [] ∨ ∀ a ∈ dirs, ¬s.Related a.name := by
  constructor
  · intro hnone
    by_cases hs : s.chars = []
    · exact Or.inl hs
    · right
      intro a ha hrel
      obtain ⟨b, hb⟩ := h.search_some hs ha hrel
      rw [hnone] at hb
      cases hb
  · rintro (hs | hapart)
    · exact h.search_empty hs
    · by_cases hs : s.chars = []
      · exact h.search_empty hs
      · exact h.search_none hs hapart

/-! ## Insertions -/

theorem Names.insert_eq (h : Names tree dirs) (hne : dirs ≠ []) (hd : d.name.chars ≠ []) :
    bstInsert tree d fatInsertComp =
      bstInsertAt (fun tmp => fatSearchComp tmp d.name) d tree := by
  obtain ⟨a, ha⟩ := List.exists_mem_of_ne_nil dirs hne
  have hfound := h.found a ha
  cases tree with
  | nil => cases hfound
  | node b l r =>
    apply bstInsertAt_congr
    intro c hc
    exact fatInsertComp_eq (h.nonempty c (h.mem c hc)) hd

/-- A name related to none in the tree is inserted. -/
theorem Names.insert (h : Names tree dirs) (hne : dirs ≠ []) (hd : d.name.chars ≠ [])
    (hapart : ∀ a ∈ dirs, ¬d.name.Related a.name) :
    (bstInsert tree d fatInsertComp).1 = some d ∧
      Names (bstInsert tree d fatInsertComp).2 (d :: dirs) := by
  have hself : fatSearchComp d d.name = .isMatch := by
    rw [fatSearchComp_eq_match, strcmp_eq_zero hd hd]
    exact Or.inl List.prefix_rfl
  obtain ⟨hput, hfound⟩ := bstInsertAt_of_none (h.search_none hd hapart) hself
  rw [h.insert_eq hne hd]
  refine ⟨hput, fun a ha => ?_, ?_, ?_, ?_⟩
  · rcases mem_bstInsertAt ha with rfl | hmem
    · exact List.mem_cons_self
    · exact List.mem_cons_of_mem d (h.mem a hmem)
  · rintro a (_ | ⟨_, ha⟩)
    · exact hd
    · exact h.nonempty a ha
  · rintro a (_ | ⟨_, ha⟩) b (_ | ⟨_, hb⟩) hrel
    · rfl
    · exact absurd hrel (hapart b hb)
    · exact absurd hrel.symm (hapart a ha)
    · exact h.apart a ha b hb hrel
  · rintro a (_ | ⟨_, ha⟩)
    · exact hfound
    · exact bstFind_insertAt (h.found a ha)

/-- An insertion succeeds exactly when the name is related to none in the tree. -/
theorem Names.insert_iff (h : Names tree dirs) (hne : dirs ≠ []) (hd : d.name.chars ≠ []) :
    (bstInsert tree d fatInsertComp).1 = some d ↔ ∀ a ∈ dirs, ¬d.name.Related a.name := by
  constructor
  · intro hput a ha hrel
    obtain ⟨b, hb⟩ := h.search_some hd ha hrel
    rw [h.insert_eq hne hd, bstInsertAt_of_some hb] at hput
    cases hput
  · intro hapart
    exact (h.insert hne hd hapart).1

theorem names_dirRoot {root : FatDir} (hroot : root.name.chars ≠ []) :
    Names (dirRoot root) [root] := by
  have hself : fatSearchComp root root.name = .isMatch := by
    rw [fatSearchComp_eq_match, strcmp_eq_zero hroot hroot]
    exact Or.inl List.prefix_rfl
  refine ⟨?_, ?_, ?_, ?_⟩
  · rintro a (rfl | h | h)
    · exact List.mem_cons_self
    · exact h.elim
    · exact h.elim
  · rintro a (_ | ⟨_, ha⟩)
    · exact hroot
    · cases ha
  · rintro a (_ | ⟨_, ha⟩) b (_ | ⟨_, hb⟩) _
    · rfl
    · cases hb
    · cases ha
    · cases ha
  · rintro a (_ | ⟨_, ha⟩)
    · rw [bstSearch, dirRoot, bstFind, hself]
    · cases ha

/-- All insertions succeed exactly when no name is related to one before it. -/
theorem Names.allInserted_iff (h : Names tree dirs) (hne : dirs ≠ []) {new : List FatDir}
    (hnew : ∀ d ∈ new, d.name.chars ≠ []) :
    AllInserted tree new ↔ (∀ d ∈ new, ∀ a ∈ dirs, ¬d.name.Related a.name) ∧
      new.Pairwise fun a b => ¬a.name.Related b.name := by
  induction new generalizing tree dirs with
  | nil => exact iff_of_true trivial ⟨List.forall_mem_nil _, List.Pairwise.nil⟩
  | cons d new ih =>
    have hd := hnew d List.mem_cons_self
    have hrest : ∀ b ∈ new, b.name.chars ≠ [] := fun b hb => hnew b (List.mem_cons_of_mem d hb)
    rw [AllInserted, h.insert_iff hne hd, List.pairwise_cons, List.forall_mem_cons]
    constructor
    · rintro ⟨hapart, hall⟩
      obtain ⟨hbefore, hpairs⟩ :=
        (ih (h.insert hne hd hapart).2 (List.cons_ne_nil d dirs) hrest).1 hall
      refine ⟨⟨hapart, fun b hb a ha => hbefore b hb a (List.mem_cons_of_mem d ha)⟩, ?_, hpairs⟩
      exact fun b hb hrel => hbefore b hb d List.mem_cons_self hrel.symm
    · rintro ⟨⟨hapart, hbefore⟩, hafter, hpairs⟩
      refine ⟨hapart, ?_⟩
      rw [ih (h.insert hne hd hapart).2 (List.cons_ne_nil d dirs) hrest]
      refine ⟨?_, hpairs⟩
      rintro b hb a (_ | ⟨_, ha⟩)
      · exact fun hrel => hafter b hb hrel.symm
      · exact hbefore b hb a ha

theorem Names.insertDirs (h : Names tree dirs) (hne : dirs ≠ []) {new : List FatDir}
    (hnew : ∀ d ∈ new, d.name.chars ≠ []) (hall : AllInserted tree new) :
    Names (insertDirs tree new) (new.reverse ++ dirs) := by
  induction new generalizing tree dirs with
  | nil => exact h
  | cons d new ih =>
    have hd := hnew d List.mem_cons_self
    have hapart := (h.insert_iff hne hd).1 hall.1
    rw [List.reverse_cons, List.append_assoc, List.singleton_append]
    exact ih (h.insert hne hd hapart).2 (List.cons_ne_nil d dirs)
      (fun b hb => hnew b (List.mem_cons_of_mem d hb)) hall.2

/-- Under a root, all insertions succeed exactly when no name begins with another. -/
theorem allInserted_dirRoot {root : FatDir} (hroot : root.name.chars ≠ [])
    (hdirs : ∀ d ∈ dirs, d.name.chars ≠ []) :
    AllInserted (dirRoot root) dirs ↔
      (root :: dirs).Pairwise fun a b => ¬a.name.Related b.name := by
  rw [(names_dirRoot hroot).allInserted_iff (List.cons_ne_nil root []) hdirs, List.pairwise_cons]
  constructor
  · rintro ⟨hbefore, hpairs⟩
    exact ⟨fun d hd hrel => hbefore d hd root List.mem_cons_self hrel.symm, hpairs⟩
  · rintro ⟨hafter, hpairs⟩
    refine ⟨?_, hpairs⟩
    rintro d hd a (_ | ⟨_, ha⟩)
    · exact fun hrel => hafter d hd hrel.symm
    · cases ha

/-- The tree finds what was inserted and nothing else exactly when no name, the one of the root
included, begins with another, and the name asked for was inserted, is empty, or is related to
none. -/
theorem names_found_iff (root : FatDir) (dirs : List FatDir) (u : CString)
    (hroot : root.name.chars ≠ []) (hdirs : ∀ d ∈ dirs, d.name.chars ≠ []) :
    NamesFound root dirs u ↔
      ((root :: dirs).Pairwise fun a b => ¬a.name.Related b.name) ∧
        ((∃ d ∈ dirs, d.name = u) ∨ u.chars = [] ∨ ∀ d ∈ root :: dirs, ¬u.Related d.name) := by
  have hbuild (hall : AllInserted (dirRoot root) dirs) :=
    (names_dirRoot hroot).insertDirs (List.cons_ne_nil root []) hdirs hall
  have hset (P : FatDir → Prop) :
      (∀ a ∈ dirs.reverse ++ [root], P a) ↔ ∀ d ∈ root :: dirs, P d := by
    simp [or_imp, forall_and, and_comm]
  rw [← allInserted_dirRoot hroot hdirs]
  constructor
  · rintro ⟨hall, -, hother⟩
    refine ⟨hall, ?_⟩
    by_cases hu : ∃ d ∈ dirs, d.name = u
    · exact Or.inl hu
    · right
      have hnone := hother fun d hd he => hu ⟨d, hd, he⟩
      rwa [(hbuild hall).search_none_iff, hset] at hnone
  · rintro ⟨hall, hu⟩
    refine ⟨hall, fun d hd => ?_, fun hnot => ?_⟩
    · apply (hbuild hall).found
      simp [hd]
    · rw [(hbuild hall).search_none_iff, hset]
      rcases hu with ⟨d, hd, he⟩ | hu
      · exact absurd he (hnot d hd)
      · exact hu

/-- "mother" with "zero" and "father" under her, asked for "study". -/
theorem names_found_iff_family : NamesFound
    ⟨0x1000, ⟨[0x6D, 0x6F, 0x74, 0x68, 0x65, 0x72], by decide⟩⟩
    [⟨0x2000, ⟨[0x7A, 0x65, 0x72, 0x6F], by decide⟩⟩,
      ⟨0x3000, ⟨[0x66, 0x61, 0x74, 0x68, 0x65, 0x72], by decide⟩⟩]
    ⟨[0x73, 0x74, 0x75, 0x64, 0x79], by decide⟩ := by
  apply (names_found_iff _ _ _ (by decide) (by decide)).2
  exact ⟨by decide, Or.inr (Or.inr (by decide))⟩

/-- "ab" is under the root "m"; "abc" is not inserted. -/
theorem names_found_fails : ¬∀ (root : FatDir) (dirs : List FatDir) (u : CString),
    root.name.chars ≠ [] → (∀ d ∈ dirs, d.name.chars ≠ []) →
    ((root :: dirs).map FatDir.name).Nodup → NamesFound root dirs u := by
  intro hall
  have h := hall ⟨0x1000, ⟨[0x6D], by decide⟩⟩
    [⟨0x2000, ⟨[0x61, 0x62], by decide⟩⟩, ⟨0x3000, ⟨[0x61, 0x62, 0x63], by decide⟩⟩]
    ⟨[0x7A], by decide⟩ (by decide) (by decide) (by decide)
  have hpairs := (allInserted_dirRoot (by decide) (by decide)).1 h.1
  exact absurd hpairs (by decide)

end YohdaOS.Fat
