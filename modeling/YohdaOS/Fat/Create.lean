import YohdaOS.Fat.Names
import YohdaOS.Fat.Region
import YohdaOS.Fat.Walk

/-!
# Creating files

`fat_crt` takes the name from the path, a checksum of it and a cluster for it, and adds the file to
the current directory.  `err_dbg` logs: where its value is not returned, the function goes on.
-/

namespace YohdaOS.Fat

def FAT_ATTR_DIRECTORY : Byte := 0x10

def FAT_ATTR_ARCHIVE : Byte := 0x20

/-- `strrchr`, as the offset of what it finds; the search includes the terminator. -/
def strrchr (str : CString) (ch : Byte) : Option ℕ :=
  (List.range (str.chars.length + 1)).reverse.find? fun i => str.chars.getD i 0 = ch

/-- What is behind the last slash. -/
def CString.baseName (path : CString) : List Byte :=
  match strrchr path 0x2F with
  | some i => path.chars.drop (i + 1)
  | none => path.chars

/-- `fat_parse_path`; `none` is the path NULL. -/
def fatParsePath (path : Option CString) (fileName : ℕ → Byte) : Except Fault (ℤ × (ℕ → Byte)) :=
  match path with
  | none => .ok (-4, fileName)
  | some path =>
    let name := path.baseName
    if name.length ≤ FAT_LFN_MAX_LEN then
      .ok (0, strncpy fileName 0 (fun i => name.getD i 0) name.length)
    else .error .name

/-- The body of the loop of `fat_calc_crc`. -/
def crcByte (crc x : Byte) : Byte := (if crc &&& 1 ≠ 0 then 0x80 else 0) + (crc >>> 1) + x

def fatCalcCrc (sfn : ℕ → Byte) : Byte :=
  (List.range F32_SFN_LEN).foldl (fun crc i => crcByte crc (sfn i)) 0

/-- What a creation works on: of `fmm`, the current directory and the region of the clusters. -/
structure FatMem where
  /-- `cd->fl`, `none` while its head is zero -/
  fl : Option (List FatFile)
  num : ℕ
  c : ClusState

def fatCrt (path : Option CString) (file : FatFile) (s : FatMem) :
    Except Fault (ℤ × FatFile × FatMem) := do
  -- no error of the calls ends the function
  let r ← fatParsePath path file.name
  let file := { file with name := r.2 }
  let crc := fatCalcCrc file.name
  let r := fatAllocClus s.c file
  let file := { r.2.1 with crc }
  .ok (r.1, file, ⟨s.fl.map (· ++ [file]), u32 (s.num + 1), r.2.2⟩)

def fatCrtFile (path : Option CString) (s : FatMem) : Except Fault (ℤ × FatMem) := do
  let r ← fatCrt path { FatFile.zero with attr := FAT_ATTR_ARCHIVE.toNat } s
  .ok (0, r.2.2)

/-- `_fat_crt_dir`, where `yalloc` succeeds: the value and the file of the directory. -/
def _fatCrtDir (path : Option CString) (attr : Byte) (s : FatMem) :
    Except Fault (ℤ × FatFile × FatMem) := do
  let r ← fatCrt path { FatFile.zero with attr := (FAT_ATTR_DIRECTORY ||| attr).toNat } s
  .ok (0, r.2)

/-- `fat_crt_dir` ends without a `return`: `ret` is what its caller takes for the value. -/
def fatCrtDir (ret : ℤ) (path : Option CString) (s : FatMem) : Except Fault (ℤ × FatMem) := do
  let r ← _fatCrtDir path 0 s
  .ok (ret, r.2.2)

/-- If no cluster can be allocated, the call reports failure and leaves the directory, the bitmap and
the counter as they were. -/
def AtomicFailure (s : FatMem) (r : Except Fault (ℤ × FatMem)) : Prop :=
  (fatAllocClus s.c FatFile.zero).1 < 0 →
    ∃ err s', r = .ok (err, s') ∧ err < 0 ∧ s'.fl = s.fl ∧ s'.num = s.num ∧
      (∀ k < s.c.rgn.nums, s'.c.Clear k ↔ s.c.Clear k) ∧ s'.c.rgn.frees = s.c.rgn.frees

variable {s : FatMem} {path : Option CString} {file : FatFile} {ret : ℤ}

theorem fatAllocClus_neg_iff (s : ClusState) (file : FatFile) :
    (fatAllocClus s file).1 < 0 ↔ s.rgn.frees = 0 ∨ bitmapGetFree s.mem s.rgn.bit < 0 := by
  unfold fatAllocClus
  by_cases hfrees : s.rgn.frees = 0
  · rw [if_pos hfrees]
    exact iff_of_true (show -ENOMEM < 0 by decide) (Or.inl hfrees)
  · rw [if_neg hfrees]
    simp only [hfrees, false_or]

theorem fatAllocClus_file {s : ClusState} (h : 0 ≤ (fatAllocClus s file).1) :
    (fatAllocClus s file).2.1 = { file with clus := some (fatAllocClus s file).1 } := by
  unfold fatAllocClus at h ⊢
  by_cases hfrees : s.rgn.frees = 0
  · rw [if_pos hfrees] at h
    exact absurd (show 0 ≤ -ENOMEM from h) (by decide)
  · simp only [if_neg hfrees]

/-- Whatever the allocation says, the file is counted. -/
theorem fatCrt_num {r : ℤ × FatFile × FatMem} (h : fatCrt path file s = .ok r) :
    r.2.2.num ≠ s.num := by
  obtain ⟨p, -, hr⟩ := bind_eq_ok h
  obtain rfl := Except.ok.inj hr
  simp only [u32]
  omega

theorem fatCrtFile_not_kept {err : ℤ} {s' : FatMem} (h : fatCrtFile path s = .ok (err, s')) :
    s'.num ≠ s.num := by
  obtain ⟨r, hcrt, hr⟩ := bind_eq_ok h
  obtain ⟨-, rfl⟩ := Prod.mk.inj (Except.ok.inj hr)
  exact fatCrt_num hcrt

theorem fatCrtDir_not_kept {err : ℤ} {s' : FatMem} (h : fatCrtDir ret path s = .ok (err, s')) :
    s'.num ≠ s.num := by
  obtain ⟨r, hdir, hr⟩ := bind_eq_ok h
  obtain ⟨-, rfl⟩ := Prod.mk.inj (Except.ok.inj hr)
  obtain ⟨r', hcrt, hr'⟩ := bind_eq_ok hdir
  obtain rfl := Except.ok.inj hr'
  have hnum : r'.2.2.num ≠ s.num := fatCrt_num hcrt
  exact hnum

/-- A call that changes the number of files fails cleanly only in that it does not fail. -/
theorem atomicFailure_iff {r : Except Fault (ℤ × FatMem)}
    (h : ∀ err s', r = .ok (err, s') → s'.num ≠ s.num) :
    AtomicFailure s r ↔ s.c.rgn.frees ≠ 0 ∧ 0 ≤ bitmapGetFree s.c.mem s.c.rgn.bit := by
  unfold AtomicFailure
  rw [fatAllocClus_neg_iff, ← not_lt, ← not_or]
  constructor
  · intro hatomic hfull
    obtain ⟨err, s', hr, -, -, hnum, -⟩ := hatomic hfull
    exact h err s' hr hnum
  · exact fun hroom hfull => absurd hfull hroom

/-- A creation is atomic only where the allocation succeeds. -/
theorem crt_atomic_iff (s : FatMem) (path : Option CString) (ret : ℤ) :
    (AtomicFailure s (fatCrtFile path s) ↔
      s.c.rgn.frees ≠ 0 ∧ 0 ≤ bitmapGetFree s.c.mem s.c.rgn.bit) ∧
    (AtomicFailure s (fatCrtDir ret path s) ↔
      s.c.rgn.frees ≠ 0 ∧ 0 ≤ bitmapGetFree s.c.mem s.c.rgn.bit) :=
  ⟨atomicFailure_iff fun _ _ => fatCrtFile_not_kept,
    atomicFailure_iff fun _ _ => fatCrtDir_not_kept⟩

/-- A directory on a volume without a free cluster: the file `a` is added to it all the same. -/
theorem crt_atomic_fails : ¬∀ (s : FatMem) (path : Option CString) (ret : ℤ),
    AtomicFailure s (fatCrtFile path s) ∧ AtomicFailure s (fatCrtDir ret path s) := by
  intro hall
  obtain ⟨hfile, -⟩ := hall ⟨some [], 0, ⟨fun _ => 0⟩, ⟨0, 0, ⟨4096, 32, 0⟩⟩⟩
    (some ⟨[0x61], by decide⟩) 0
  exact ((atomicFailure_iff fun _ _ => fatCrtFile_not_kept).1 hfile).1 rfl

end YohdaOS.Fat
