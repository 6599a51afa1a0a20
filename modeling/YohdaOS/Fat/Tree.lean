import YohdaOS.Fat.Checksum
import YohdaOS.Fat.Sync

/-!
# From paths to the tree of directories

`fat_crt_dir` gives a directory the last component of a path and a cluster, `fat_sync` writes the
directory they are in, `fat_crt_dir_tree` builds the tree from what it reads, and `fat_set_dir` looks
the last component of a path up there.
-/

namespace YohdaOS.Fat

open ByteMem ClusState

variable {name : ℕ → Byte} {s : List Byte}

theorem cstr_nonzero (name : ℕ → Byte) : (0 : Byte) ∉ cstr name := by
  intro h
  obtain ⟨i, hi, h0⟩ := List.mem_map.1 h
  exact ne_zero_of_lt_strlenFrom (Nat.zero_le i) (List.mem_range.1 hi) h0

/-- The string in an array of characters. -/
def toCString (name : ℕ → Byte) : CString := ⟨cstr name, cstr_nonzero name⟩

/-- Directories of the paths, one after another. -/
def fatCrtDirs : List CString → FatMem → Except Fault FatMem
  | [], s => .ok s
  | path :: paths, s => do
    let r ← fatCrtDir 0 (some path) s
    fatCrtDirs paths r.2

/-- The tree of the root directory and the files of its nodes: `files[i]` is that of node `i`, and
node 0 is the root. -/
structure DirTree where
  files : List FatFile
  tree : Bst FatDir

def dirNode (i : ℕ) (file : FatFile) : FatDir := ⟨i, toCString file.name⟩

/-- The nodes of the files that were found. -/
def dirNodes (files : List FatFile) : List FatDir := (files.zipIdx 1).map fun p => dirNode p.2 p.1

/-- `fat_crt_dir_tree` -/
def fatCrtDirTree (fat : FatInfo) (disk : Disk) (root : FatFile) : Except Fault DirTree := do
  let files ← fatParseEntry (fat.fatReadDir disk 0) (fat.ds / FAT_ENTRY_SIZE)
  .ok ⟨root :: files, insertDirs (dirRoot (dirNode 0 root)) (dirNodes files)⟩

/-- `fat_set_dir`: the directory that becomes the current one, `none` where `bst_search` returns
NULL.  An empty path is logged and looked up like any other. -/
def fatSetDir (t : DirTree) (path : CString) : Except Fault (Option FatFile) := do
  let r ← fatParsePath (some path) fun _ => 0
  .ok ((bstSearch t.tree (toCString r.2) fatSearchComp).bind fun d => t.files[d.ptr]?)

/-! ## Names -/

/-- A name copied into an array of zeros. -/
theorem strncpy_zero (hs : (0 : Byte) ∉ s) (hlen : s.length < 256) :
    strncpy (fun _ => 0) 0 (fun i => s.getD i 0) s.length = fun i => s.getD i 0 := by
  funext i
  rw [strncpy_apply (named_getD hs) hlen]
  split_ifs with hin
  · rfl
  · exact (List.getD_eq_default _ _ (by omega)).symm

theorem fatParsePath_spec (path : CString) (hlen : path.baseName.length < 256) :
    ∃ name, fatParsePath (some path) (fun _ => 0) = .ok (0, name) ∧ Named name path.baseName := by
  have hle : path.baseName.length ≤ FAT_LFN_MAX_LEN := by
    rw [FAT_LFN_MAX_LEN]
    omega
  have hparse : fatParsePath (some path) (fun _ => 0) =
      .ok (0, strncpy (fun _ => 0) 0 (fun i => path.baseName.getD i 0) path.baseName.length) :=
    if_pos hle
  rw [strncpy_zero path.baseName_nonzero hlen] at hparse
  exact ⟨_, hparse, named_getD path.baseName_nonzero⟩

/-! ## Creation -/

/-- A new directory: its name, its attribute and its cluster. -/
structure NewDir (f : FatFile) (path : CString) (k : ℕ) : Prop where
  name : Named f.name path.baseName
  attr : f.attr = 0x10
  clus : f.clus = some (k : ℤ)

theorem NewDir.key {f : FatFile} {path : CString} {k : ℕ} (h : NewDir f path k)
    (hlen : path.baseName.length < 256) : f.key = (path.baseName, 0x10, some (k : ℤ)) := by
  rw [FatFile.key, h.name.cstr hlen, h.attr, h.clus]

theorem NewDir.storable {f : FatFile} {path : CString} {k : ℕ} (h : NewDir f path k)
    (hpos : 1 ≤ path.baseName.length) (hlen : path.baseName.length < 256) (hk : k < 2147483648) :
    f.Storable :=
  ⟨⟨_, h.name, hpos, by omega⟩, by rw [h.attr]; decide, k, h.clus, by omega, by omega⟩

theorem fatCrtDir_spec {s : FatMem} {files : List FatFile} (hfl : s.fl = some files)
    (hwf : s.c.rgn.WellFormed) (hacc : s.c.Accounted) (hfrees : s.c.rgn.frees ≠ 0) (path : CString)
    (hlen : path.baseName.length < 256) :
    ∃ k < s.c.rgn.nums, s.c.Clear k ∧ ∃ f num, NewDir f path k ∧
      fatCrtDir 0 (some path) s = .ok (0, ⟨some (files ++ [f]), num, s.c.mark k⟩) := by
  obtain ⟨name, hparse, hname⟩ := fatParsePath_spec path hlen
  obtain ⟨k, hk, hclear, -, halloc⟩ := fatAllocClus_of_free hwf hacc
    { FatFile.zero with attr := (FAT_ATTR_DIRECTORY ||| 0).toNat, name := name } hfrees
  refine ⟨k, hk, hclear, { FatFile.zero with
    attr := (FAT_ATTR_DIRECTORY ||| 0).toNat, name := name, clus := some (k : ℤ), crc := fatCalcCrc name },
    u32 (s.num + 1), ⟨hname, rfl, rfl⟩, ?_⟩
  have hparse' : fatParsePath (some path) FatFile.zero.name = .ok (0, name) := hparse
  simp only [fatCrtDir, _fatCrtDir, fatCrt, hparse', ok_bind, halloc, hfl, Option.map_some]

/-- The directories made, and the clusters taken for them. -/
structure Made (paths : List CString) (new : List (FatFile × ℕ)) (c c' : ClusState) : Prop where
  dirs : List.Forall₂ (fun path n => NewDir n.1 path n.2) paths new
  nodup : (new.map Prod.snd).Nodup
  taken : ∀ k ∈ new.map Prod.snd, k < c.rgn.nums ∧ c.Clear k
  clear : ∀ k, c'.Clear k ↔ k ∉ new.map Prod.snd ∧ c.Clear k

theorem fatCrtDirs_spec {paths : List CString} {s : FatMem} {files : List FatFile}
    (hfl : s.fl = some files) (hwf : s.c.rgn.WellFormed) (hacc : s.c.Accounted)
    (hroom : paths.length ≤ s.c.rgn.frees) (hlen : ∀ p ∈ paths, p.baseName.length < 256) :
    ∃ new s', fatCrtDirs paths s = .ok s' ∧ s'.fl = some (files ++ new.map Prod.fst) ∧
      Made paths new s.c s'.c := by
  induction paths generalizing s files with
  | nil =>
    exact ⟨[], s, rfl, by simpa using hfl, .nil, List.nodup_nil, by simp, by simp⟩
  | cons path paths ih =>
    rw [List.length_cons] at hroom
    obtain ⟨k, hk, hclear, f, num, hf, hrun⟩ :=
      fatCrtDir_spec hfl hwf hacc (by omega) path (hlen path List.mem_cons_self)
    have hfrees : (s.c.mark k).rgn.frees = s.c.rgn.frees - 1 := by
      have hle := hacc.frees_le
      have hnums := hwf.nums
      rw [mark_frees, ← Nat.cast_one, ← Int.ofNat_sub (by omega)]
      exact toU32_natCast (by omega)
    obtain ⟨new, s', hrest, hfl', hmade⟩ := ih (s := ⟨some (files ++ [f]), num, s.c.mark k⟩) rfl
      (wellFormed_mark hwf k) (hacc.mark hwf hk hclear) (by simp only [hfrees]; omega)
      fun p hp => hlen p (List.mem_cons_of_mem path hp)
    have hnot : k ∉ new.map Prod.snd := by
      intro hmem
      have hmark := (hmade.taken k hmem).2
      rw [clear_mark hwf] at hmark
      exact hmark.1 rfl
    refine ⟨(f, k) :: new, s', ?_, ?_, ⟨.cons hf hmade.dirs, ?_, ?_, fun l => ?_⟩⟩
    · rw [fatCrtDirs, hrun, ok_bind]
      exact hrest
    · rw [hfl', List.append_assoc, List.singleton_append, List.map_cons]
    · exact List.nodup_cons.2 ⟨hnot, hmade.nodup⟩
    · rintro l (_ | ⟨_, hl⟩)
      · exact ⟨hk, hclear⟩
      · obtain ⟨hlt, hmark⟩ := hmade.taken l hl
        exact ⟨hlt, ((clear_mark hwf k l).1 hmark).2⟩
    · rw [hmade.clear l, clear_mark hwf, List.map_cons, List.mem_cons, not_or]
      tauto

/-! ## The directory on the disk -/

/-- The bytes that the entries of the directories take. -/
def dirBytes : List CString → ℕ
  | [] => 0
  | path :: paths => (fatGetLfns path.baseName.length + 1) * 32 + dirBytes paths

theorem groupBytes_of_made {paths : List CString} {new : List (FatFile × ℕ)}
    (h : List.Forall₂ (fun path n => NewDir n.1 path n.2) paths new)
    (hlen : ∀ p ∈ paths, p.baseName.length < 256) :
    groupBytes (new.map Prod.fst) = dirBytes paths := by
  induction h with
  | nil => rfl
  | cons hd _ ih =>
    have hstr := hd.name.strlen (hlen _ List.mem_cons_self)
    rw [List.map_cons, groupBytes, dirBytes, FatFile.slots, hstr,
      ih fun p hp => hlen p (List.mem_cons_of_mem _ hp)]

/-- What `fat_sync` has written is what `fat_crt_dir_tree` reads. -/
theorem fatSync_parse {fat : FatInfo} (hcfs : fat.cfs < 4294967296) {files : List FatFile}
    (hv : ∀ f ∈ files, f.Valid) (hfits : groupBytes files < fat.ds) (garbage : ℕ → Byte) (disk : Disk) :
    ∃ disk' out, fat.fatSync garbage files disk = .ok (0, disk') ∧
      fatParseEntry (fat.fatReadDir disk' 0) (fat.ds / FAT_ENTRY_SIZE) = .ok out ∧
      out.map FatFile.key = files.map FatFile.key := by
  obtain ⟨b', hrun, -, hgroups, hkeep⟩ := fatSyncLoop_ok (fat.syncBuffer garbage) 0
    (fun f hf => (hv f hf).storable) (by simp only [FatInfo.syncBuffer]; omega)
  rw [Nat.zero_add] at hrun hkeep
  have hzero : b'.byte (groupBytes files) = 0 := (hkeep _ (Or.inr le_rfl)).trans (if_pos hfits)
  have hsame : ∀ x, x < fat.ds →
      (fat.fatReadDir (fat.fatWriteDir disk 0 b'.byte) 0).byte x = b'.byte x := by
    intro x hx
    rw [FatInfo.byte_read_write disk b'.byte (show fat.cfs + 0 < 4294967296 by omega), Nat.zero_mul,
      Nat.zero_add, if_pos hx]
  obtain ⟨hwalk, hkeys⟩ := Groups.walk (hgroups.congr fun x _ hx => hsame x (by omega)) hv
    (by rw [Nat.zero_add]; exact hfits) (by rw [Nat.zero_add, hsame _ hfits, hzero])
  have hcount := liveStarts_length_le (fat.fatReadDir (fat.fatWriteDir disk 0 b'.byte) 0) 0
    files.length
  have hle : 32 * files.length < fat.ds := by
    have hwalked := hwalk.le
    rw [Nat.zero_add] at hwalked
    exact hwalked
  refine ⟨_, _, by rw [FatInfo.fatSync, hrun, ok_bind], hwalk.parseEntry ?_, hkeys⟩
  rw [FAT_ENTRY_SIZE]
  omega

/-! ## The tree -/

/-- The last component of a path. -/
def CString.base (path : CString) : CString := ⟨path.baseName, path.baseName_nonzero⟩

theorem toCString_eq {f : FatFile} {path : CString} (h : cstr f.name = path.baseName) :
    toCString f.name = path.base := by
  unfold toCString CString.base
  simp only [h]

theorem dirNodes_name (files : List FatFile) :
    (dirNodes files).map FatDir.name = files.map fun f => toCString f.name := by
  have hfst := List.zipIdx_map_fst 1 files
  rw [dirNodes, List.map_map]
  conv_rhs => rw [← hfst, List.map_map]
  rfl

theorem mem_dirNodes {files : List FatFile} {i : ℕ} (hi : i < files.length) :
    dirNode (i + 1) files[i] ∈ dirNodes files := by
  refine List.mem_map.2 ⟨(files[i], i + 1), ?_, rfl⟩
  rw [List.mem_iff_getElem]
  exact ⟨i, by simpa using hi, by simp [Nat.add_comm]⟩

/-- Where no name begins with another the tree is one of names. -/
theorem names_tree {root : FatFile} {files : List FatFile}
    (hroot : (toCString root.name).chars ≠ [])
    (hfiles : ∀ f ∈ files, (toCString f.name).chars ≠ [])
    (hapart : (toCString root.name :: files.map fun f => toCString f.name).Pairwise
      fun a b => ¬ a.Related b) :
    Names (insertDirs (dirRoot (dirNode 0 root)) (dirNodes files))
      ((dirNodes files).reverse ++ [dirNode 0 root]) := by
  have hnodes : ∀ d ∈ dirNodes files, d.name.chars ≠ [] := by
    intro d hd
    have hname := List.mem_map_of_mem (f := FatDir.name) hd
    rw [dirNodes_name] at hname
    obtain ⟨f, hf, heq⟩ := List.mem_map.1 hname
    rw [← heq]
    exact hfiles f hf
  have hall : AllInserted (dirRoot (dirNode 0 root)) (dirNodes files) := by
    rw [allInserted_dirRoot hroot hnodes, ← List.pairwise_map (f := FatDir.name)
      (R := fun a b => ¬ a.Related b), List.map_cons, dirNodes_name]
    exact hapart
  exact (names_dirRoot hroot).insertDirs (List.cons_ne_nil _ _) hnodes hall

theorem fatSetDir_eq (t : DirTree) (q : CString) (hlen : q.baseName.length < 256) :
    fatSetDir t q = .ok ((bstSearch t.tree q.base fatSearchComp).bind fun d => t.files[d.ptr]?) := by
  obtain ⟨name, hparse, hname⟩ := fatParsePath_spec q hlen
  have hq : toCString name = q.base := by
    unfold toCString CString.base
    simp only [hname.cstr hlen]
  rw [fatSetDir, hparse, ok_bind, hq]

section Found

variable {root : FatFile} {files : List FatFile} (hroot : (toCString root.name).chars ≠ [])
  (hfiles : ∀ f ∈ files, (toCString f.name).chars ≠ [])
  (hapart : (toCString root.name :: files.map fun f => toCString f.name).Pairwise
    fun a b => ¬ a.Related b)

include hroot hfiles hapart

theorem fatSetDir_found {i : ℕ} (hi : i < files.length) {q : CString}
    (hlen : q.baseName.length < 256) (hq : q.base = toCString files[i].name) :
    fatSetDir ⟨root :: files, insertDirs (dirRoot (dirNode 0 root)) (dirNodes files)⟩ q =
      .ok (some files[i]) := by
  have hnames := names_tree hroot hfiles hapart
  have hmem : dirNode (i + 1) files[i] ∈ (dirNodes files).reverse ++ [dirNode 0 root] :=
    List.mem_append_left _ (List.mem_reverse.2 (mem_dirNodes hi))
  have hfound := hnames.found _ hmem
  rw [fatSetDir_eq _ _ hlen, hq]
  rw [show (dirNode (i + 1) files[i]).name = toCString files[i].name from rfl] at hfound
  rw [hfound, Option.bind_some]
  simp [dirNode, hi]

theorem fatSetDir_none {q : CString} (hlen : q.baseName.length < 256)
    (hnot : ∀ f ∈ root :: files, ¬ q.base.Related (toCString f.name)) :
    fatSetDir ⟨root :: files, insertDirs (dirRoot (dirNode 0 root)) (dirNodes files)⟩ q =
      .ok none := by
  have hnames := names_tree hroot hfiles hapart
  rw [fatSetDir_eq _ _ hlen, (hnames.search_none_iff q.base).2, Option.bind_none]
  refine Or.inr fun a ha => ?_
  rcases List.mem_append.1 ha with ha | ha
  · have hname := List.mem_map_of_mem (f := FatDir.name) (List.mem_reverse.1 ha)
    rw [dirNodes_name] at hname
    obtain ⟨f, hf, heq⟩ := List.mem_map.1 hname
    rw [← heq]
    exact hnot f (List.mem_cons_of_mem _ hf)
  · obtain rfl := List.mem_singleton.1 ha
    exact hnot root List.mem_cons_self

end Found

/-! ## Directories that are made are found -/

theorem keys_of_made {paths : List CString} {new : List (FatFile × ℕ)}
    (h : List.Forall₂ (fun path n => NewDir n.1 path n.2) paths new)
    (hlen : ∀ p ∈ paths, p.baseName.length < 256) :
    (new.map Prod.fst).map FatFile.key =
      (paths.zip (new.map Prod.snd)).map fun p => (p.1.baseName, 0x10, some (p.2 : ℤ)) := by
  induction h with
  | nil => rfl
  | cons hd _ ih =>
    rw [List.map_cons, List.map_cons, List.map_cons, List.zip_cons_cons, List.map_cons,
      hd.key (hlen _ List.mem_cons_self), ih fun p hp => hlen p (List.mem_cons_of_mem _ hp)]

theorem valid_of_made {paths : List CString} {new : List (FatFile × ℕ)}
    (h : List.Forall₂ (fun path n => NewDir n.1 path n.2) paths new)
    (hlen : ∀ p ∈ paths, 1 ≤ p.baseName.length ∧ p.baseName.length ≤ 247)
    (hclus : ∀ k ∈ new.map Prod.snd, k < 2147483648) : ∀ f ∈ new.map Prod.fst, f.Valid := by
  induction h with
  | nil => simp
  | @cons path n paths new hd _ ih =>
    rintro f (_ | ⟨_, hf⟩)
    · obtain ⟨hlo, hhi⟩ := hlen path List.mem_cons_self
      have hk := hclus n.2 List.mem_cons_self
      exact ⟨⟨_, hd.name, hlo, hhi⟩, by rw [hd.attr]; decide, n.2, hd.clus, by omega, by omega⟩
    · exact ih (fun p hp => hlen p (List.mem_cons_of_mem _ hp))
        (fun k hk => hclus k (List.mem_cons_of_mem _ hk)) f hf

theorem toCString_of_keys {paths : List CString} {files : List FatFile} {clus : List ℕ}
    (hcount : clus.length = paths.length)
    (h : files.map FatFile.key =
      (paths.zip clus).map fun p => (p.1.baseName, 0x10, some (p.2 : ℤ))) :
    (files.map fun f => toCString f.name) = paths.map CString.base := by
  have hchars : (files.map fun f => cstr f.name) = paths.map CString.baseName := by
    have hfst := congrArg (List.map fun k : List Byte × ℕ × Option ℤ => k.1) h
    rw [List.map_map, List.map_map] at hfst
    have hzip : (paths.zip clus).map Prod.fst = paths := List.map_fst_zip hcount.ge
    calc (files.map fun f => cstr f.name)
        = (paths.zip clus).map fun p => p.1.baseName := hfst
      _ = ((paths.zip clus).map Prod.fst).map CString.baseName := by rw [List.map_map]; rfl
      _ = paths.map CString.baseName := by rw [hzip]
  have hinj : Function.Injective CString.chars := by
    rintro ⟨s, hs⟩ ⟨t, ht⟩ hst
    simpa using hst
  apply List.map_injective_iff.2 hinj
  rw [List.map_map, List.map_map]
  exact hchars

/-- Every directory got a cluster of its own that was clear before; after the directory they are in
has been written and the tree has been built from the disk, `fat_set_dir` finds each of them by its
name, with its attribute and its cluster, and finds nothing where the name asked for neither begins
with the name of one of them nor begins it. -/
def DirsFound (fat : FatInfo) (garbage : ℕ → Byte) (disk : Disk) (root : FatFile)
    (paths : List CString) (s : FatMem) : Prop :=
  ∃ s' files disk' t, ∃ clus : List ℕ, fatCrtDirs paths s = .ok s' ∧ s'.fl = some files ∧
    fat.fatSync garbage files disk = .ok (0, disk') ∧ fatCrtDirTree fat disk' root = .ok t ∧
    clus.length = paths.length ∧ clus.Nodup ∧ (∀ k ∈ clus, k < s.c.rgn.nums ∧ s.c.Clear k) ∧
    (∀ k, s'.c.Clear k ↔ k ∉ clus ∧ s.c.Clear k) ∧
    (∀ p ∈ paths.zip clus, ∀ q : CString, q.baseName = p.1.baseName →
      ∃ f, fatSetDir t q = .ok (some f) ∧ f.key = (p.1.baseName, 0x10, some (p.2 : ℤ))) ∧
    ∀ q : CString, q.baseName.length < 256 → ¬ q.base.Related (toCString root.name) →
      (∀ p ∈ paths, ¬ q.base.Related p.base) → fatSetDir t q = .ok none

end YohdaOS.Fat
