import YohdaOS.Lib.Memory
import YohdaOS.Machine

/-!
# parse_multiboot

The kernel walks the tags of the boot information up to the end tag, and in a tag of the memory map
the entries up to the end of the tag.  What it prints of an entry is all it does with it.
-/

namespace YohdaOS.Multiboot

open ByteMem

def MULTIBOOT2_BOOTLOADER_MAGIC : ℕ := 0x36d76289

def MULTIBOOT_TAG_TYPE_END : ℕ := 0

def MULTIBOOT_TAG_TYPE_MMAP : ℕ := 6

/-- A `struct multiboot_mmap_entry` that was read, with its address. -/
structure MmapEntry where
  ptr : ℕ
  addr : ℕ
  len : ℕ
  type : ℕ
deriving DecidableEq, Repr

/-- A tag that was visited; `entries` are those read from it. -/
structure MbTag where
  ptr : ℕ
  type : ℕ
  entries : List MmapEntry
deriving DecidableEq, Repr

/-- The value returned, the tags visited, and the tag at which the walk stopped. -/
structure MbResult where
  ret : ℤ
  tags : List MbTag
  last : ℕ
deriving DecidableEq, Repr

def readEntry (m : Mem) (p : ℕ) : MmapEntry := ⟨p, load64 m p, load64 m (p + 8), load32 m (p + 16)⟩

/-- The loop over the entries, `bound` being the end of the tag. -/
def mmapLoop (m : Mem) (bound entrySize : ℕ) : ℕ → ℕ → Option (List MmapEntry)
  | 0, _ => none
  | fuel + 1, p =>
    if p < bound then
      (mmapLoop m bound entrySize fuel (u32 (p + entrySize))).map (readEntry m p :: ·)
    else some []

/-- `(unsigned char *)tag + ((tag->size+7)&~7)` -/
def nextTag (tag size : ℕ) : ℕ := u32 (tag + u32 (size + 7) / 8 * 8)

/-- A visited tag in front of what the rest of the walk gives. -/
def MbResult.visit (tag : MbTag) (r : MbResult) : MbResult := { r with tags := tag :: r.tags }

/-- The loop over the tags. -/
def tagLoop (m : Mem) : ℕ → ℕ → Option MbResult
  | 0, _ => none
  | fuel + 1, tag =>
    let type := load32 m tag
    let size := load32 m (tag + 4)
    if type = MULTIBOOT_TAG_TYPE_END then some ⟨0, [], tag⟩
    else if type = MULTIBOOT_TAG_TYPE_MMAP then
      match mmapLoop m (u32 (tag + size)) (load32 m (u32 (tag + 8))) fuel (u32 (tag + 16)) with
      | none => none
      | some entries =>
        (tagLoop m fuel (nextTag tag size)).map (MbResult.visit ⟨tag, type, entries⟩)
    else if type > 21 then some ⟨-5, [⟨tag, type, []⟩], tag⟩
    else (tagLoop m fuel (nextTag tag size)).map (MbResult.visit ⟨tag, type, []⟩)

/-- `parse_multiboot`, where the kernel's memory is `m`. -/
def parseMultiboot (m : Mem) (fuel magic mbiBase : ℕ) : Option MbResult :=
  if magic ≠ MULTIBOOT2_BOOTLOADER_MAGIC then some ⟨-1, [], mbiBase⟩
  else if mbiBase &&& 7 ≠ 0 then some ⟨-2, [], mbiBase⟩
  else tagLoop m fuel (u32 (mbiBase + 8))

/-! ## Walking the entries -/

/-- A descriptor of the memory map: an address range and its type. -/
structure E820 where
  addr : BitVec 64
  len : BitVec 64
  type : BitVec 32
  /-- the extended attributes that a BIOS may deliver with it -/
  attr : Option (BitVec 32)
deriving DecidableEq

/-- The entry in which the descriptor is found at `p`. -/
def E820.entry (d : E820) (p : ℕ) : MmapEntry := ⟨p, d.addr.toNat, d.len.toNat, d.type.toNat⟩

/-- The entries of the descriptors, one behind another from `p` on. -/
def entriesAt : ℕ → List E820 → List MmapEntry
  | _, [] => []
  | p, d :: ds => d.entry p :: entriesAt (p + 24) ds

/-- The memory has the descriptors there. -/
def ReadsAt (m : Mem) : ℕ → List E820 → Prop
  | _, [] => True
  | p, d :: ds => readEntry m p = d.entry p ∧ ReadsAt m (p + 24) ds

variable {m : Mem} {ds : List E820} {p : ℕ}

theorem mmapLoop_of_readsAt (h : ReadsAt m p ds) (hend : p + 24 * ds.length < 4294967296) {fuel : ℕ}
    (hfuel : ds.length < fuel) :
    mmapLoop m (p + 24 * ds.length) 24 fuel p = some (entriesAt p ds) := by
  induction ds generalizing p fuel with
  | nil =>
    obtain ⟨fuel, rfl⟩ : ∃ f, fuel = f + 1 := ⟨fuel - 1, by simp at hfuel; omega⟩
    rw [mmapLoop, if_neg (by simp)]
    rfl
  | cons d ds ih =>
    obtain ⟨fuel, rfl⟩ : ∃ f, fuel = f + 1 := ⟨fuel - 1, by omega⟩
    rw [List.length_cons] at hend hfuel ⊢
    have hrest := ih h.2 (by omega) (show ds.length < fuel by omega)
    have hbound : p + 24 * (ds.length + 1) = p + 24 + 24 * ds.length := by ring
    rw [mmapLoop, if_pos (by omega), u32_of_lt (by omega), hbound, hrest, h.1]
    rfl

/-- What the loop reads with the right entry size is what the memory has. -/
theorem readsAt_of_mmapLoop {bound fuel : ℕ} (hend : p + 24 * ds.length < 4294967296)
    (h : mmapLoop m bound 24 fuel p = some (entriesAt p ds)) : ReadsAt m p ds := by
  induction ds generalizing p fuel with
  | nil => trivial
  | cons d ds ih =>
    cases fuel with
    | zero => cases h
    | succ fuel =>
      rw [List.length_cons] at hend
      rw [mmapLoop] at h
      by_cases hlt : p < bound
      · rw [if_pos hlt, u32_of_lt (by omega), entriesAt, Option.map_eq_some_iff] at h
        obtain ⟨es, hes, hcons⟩ := h
        rw [List.cons.injEq] at hcons
        rw [hcons.2] at hes
        exact ⟨hcons.1, ih (by omega) hes⟩
      · rw [if_neg hlt] at h
        cases h

/-! ## The block of one memory map -/

/-- What the walk of a block is to be: the one tag with its entries, then the end tag, and 0. -/
def blockResult (base : ℕ) (ds : List E820) : MbResult :=
  ⟨0, [⟨base + 8, MULTIBOOT_TAG_TYPE_MMAP, entriesAt (base + 24) ds⟩], base + 24 + 24 * ds.length⟩

/-- The kernel finds the memory map at `base`. -/
def HandedOver (m : Mem) (base : ℕ) (ds : List E820) : Prop :=
  ∃ fuel, parseMultiboot m fuel MULTIBOOT2_BOOTLOADER_MAGIC base = some (blockResult base ds)

/-- The walk stops at the tag without visiting one exactly at an end tag. -/
theorem tagLoop_nil_iff {fuel tag last : ℕ} :
    tagLoop m (fuel + 1) tag = some ⟨0, [], last⟩ ↔ load32 m tag = 0 ∧ last = tag := by
  rw [tagLoop]
  by_cases hend : load32 m tag = MULTIBOOT_TAG_TYPE_END
  · rw [if_pos hend, Option.some.injEq, MbResult.mk.injEq]
    exact ⟨fun h => ⟨hend, h.2.2.symm⟩, fun h => ⟨rfl, rfl, h.2.symm⟩⟩
  · rw [if_neg hend]
    apply iff_of_false
    · split_ifs
      · split
        · simp
        · simp [MbResult.visit]
      · simp
      · simp [MbResult.visit]
    · exact fun h => hend h.1

/-- The loop over the entries of one descriptor with a size that may be wrong. -/
theorem mmapLoop_one_iff {bound e fuel : ℕ} {d : E820} (hp : p < bound) (hbound : bound = p + 24)
    (hlt : p + 24 < 4294967296) (he : e < 65536) :
    mmapLoop m bound (24 + 65536 * e) (fuel + 2) p = some (entriesAt p [d]) ↔
      readEntry m p = d.entry p ∧ p + 24 + 65536 * e < 4294967296 := by
  rw [mmapLoop, if_pos hp, mmapLoop]
  by_cases hwrap : u32 (p + (24 + 65536 * e)) < bound
  · rw [if_pos hwrap]
    apply iff_of_false
    · cases mmapLoop m bound (24 + 65536 * e) fuel (u32 (u32 (p + (24 + 65536 * e)) +
        (24 + 65536 * e))) with
      | none => simp
      | some es => simp [entriesAt]
    · rintro ⟨-, hend⟩
      rw [u32_of_lt (by omega)] at hwrap
      omega
  · rw [if_neg hwrap]
    have hend : p + 24 + 65536 * e < 4294967296 := by
      unfold u32 at hwrap
      omega
    simp [entriesAt, hend]

/-- With two descriptors or more the loop goes from one to the next only with the right entry
size. -/
theorem size_of_mmapLoop {bound e fuel : ℕ} {d d' : E820} (he : e < 65536)
    (h : mmapLoop m bound (24 + 65536 * e) fuel p = some (entriesAt p (d :: d' :: ds))) : e = 0 := by
  cases fuel with
  | zero => cases h
  | succ fuel =>
    rw [mmapLoop] at h
    split_ifs at h
    · rw [Option.map_eq_some_iff] at h
      obtain ⟨es, hes, hcons⟩ := h
      rw [entriesAt, List.cons.injEq] at hcons
      rw [hcons.2] at hes
      cases fuel with
      | zero => cases hes
      | succ fuel =>
        rw [mmapLoop] at hes
        split_ifs at hes
        · rw [Option.map_eq_some_iff] at hes
          obtain ⟨es', -, hcons'⟩ := hes
          rw [entriesAt, List.cons.injEq] at hcons'
          have hptr : u32 (p + (24 + 65536 * e)) = p + 24 := congrArg MmapEntry.ptr hcons'.1
          unfold u32 at hptr
          omega
        · cases hes
    · cases h

/-- The fields of a block as 16-bit code leaves them: the low halves are those of a good block, `t`,
`s` and `e` are the high halves of the type, the size and the entry size. -/
structure Halves (m : Mem) (base n t s e : ℕ) : Prop where
  type : load32 m (base + 8) = 6 + 65536 * t
  size : load32 m (base + 12) = 16 + 24 * n + 65536 * s
  entrySize : load32 m (base + 16) = 24 + 65536 * e
  t_lt : t < 65536
  s_lt : s < 65536
  e_lt : e < 65536

/-- The entry size carries the loop over `n` entries from the one at `p` on. -/
def StepsOver (p n e : ℕ) : Prop := e = 0 ∨ n = 1 ∧ p + 24 + 65536 * e < 4294967296

/-- The loop over the entries of a block. -/
theorem mmapLoop_block {e fuel : ℕ} (hne : ds ≠ []) (hend : p + 24 * ds.length < 4294967296)
    (he : e < 65536)
    (h : mmapLoop m (p + 24 * ds.length) (24 + 65536 * e) fuel p = some (entriesAt p ds)) :
    StepsOver p ds.length e ∧ ReadsAt m p ds := by
  match ds, hne with
  | [d], _ =>
    rw [List.length_singleton] at hend h ⊢
    match fuel, h with
    | 1, h =>
      rw [mmapLoop, if_pos (by omega)] at h
      cases h
    | fuel + 2, h =>
      obtain ⟨hread, hwrap⟩ := (mmapLoop_one_iff (by omega) (by omega) (by omega) he).1 h
      exact ⟨Or.inr ⟨rfl, hwrap⟩, hread, trivial⟩
  | d :: d' :: ds, _ =>
    have hsize : e = 0 := size_of_mmapLoop he h
    rw [hsize] at h ⊢
    exact ⟨Or.inl rfl, readsAt_of_mmapLoop hend h⟩

theorem mmapLoop_of_stepsOver {e fuel : ℕ} (hend : p + 24 * ds.length < 4294967296)
    (he : e < 65536) (hsteps : StepsOver p ds.length e) (hreads : ReadsAt m p ds)
    (hfuel : ds.length < fuel) :
    mmapLoop m (p + 24 * ds.length) (24 + 65536 * e) fuel p = some (entriesAt p ds) := by
  rcases hsteps with rfl | ⟨hone, hwrap⟩
  · exact mmapLoop_of_readsAt hreads hend hfuel
  · obtain ⟨d, rfl⟩ := List.length_eq_one_iff.1 hone
    rw [List.length_singleton] at hend hfuel ⊢
    obtain ⟨fuel, rfl⟩ : ∃ f, fuel = f + 2 := ⟨fuel - 2, by omega⟩
    exact (mmapLoop_one_iff (by omega) (by omega) (by omega) he).2 ⟨hreads.1, hwrap⟩

/-- The kernel finds the memory map exactly when the high halves do not matter, the entries are the
descriptors, and the end tag is there. -/
theorem handedOver_iff {base t s e : ℕ} (hne : ds ≠ []) (hbase : base % 8 = 0)
    (hend : base + 24 * ds.length + 32 < 4294967296) (hlen : 24 * ds.length + 32 < 65536)
    (h : Halves m base ds.length t s e) :
    HandedOver m base ds ↔ t = 0 ∧ s = 0 ∧ StepsOver (base + 24) ds.length e ∧
      ReadsAt m (base + 24) ds ∧ load32 m (base + 24 + 24 * ds.length) = 0 := by
  have halign : base &&& 7 = 0 := (Nat.and_two_pow_sub_one_eq_mod base 3).trans hbase
  have hparse (fuel : ℕ) : parseMultiboot m fuel MULTIBOOT2_BOOTLOADER_MAGIC base =
      tagLoop m fuel (base + 8) := by
    rw [parseMultiboot, if_neg (not_not.2 rfl), if_neg (not_not.2 halign), u32_of_lt (by omega)]
  have hs := h.s_lt
  have hnext : nextTag (base + 8) (load32 m (base + 8 + 4)) =
      u32 (base + 24 + 24 * ds.length + 65536 * s) := by
    rw [show base + 8 + 4 = base + 12 by omega, h.size, nextTag,
      u32_of_lt (show 16 + 24 * ds.length + 65536 * s + 7 < _ by omega)]
    congr 1
    omega
  have hbound : u32 (base + 8 + load32 m (base + 8 + 4)) =
      u32 (base + 24 + 24 * ds.length + 65536 * s) := by
    rw [show base + 8 + 4 = base + 12 by omega, h.size]
    congr 1
    omega
  have htype : load32 m (base + 8) ≠ MULTIBOOT_TAG_TYPE_END := by
    rw [h.type, MULTIBOOT_TAG_TYPE_END]
    omega
  have hentry : load32 m (u32 (base + 8 + 8)) = 24 + 65536 * e := by
    rw [u32_of_lt (by omega)]
    exact h.entrySize
  have hstart : u32 (base + 8 + 16) = base + 24 := u32_of_lt (by omega)
  unfold HandedOver
  simp only [hparse]
  constructor
  · rintro ⟨fuel, hrun⟩
    cases fuel with
    | zero => cases hrun
    | succ fuel =>
      rw [tagLoop] at hrun
      simp only [if_neg htype, hnext, hbound, hentry, hstart] at hrun
      by_cases hmap : load32 m (base + 8) = MULTIBOOT_TAG_TYPE_MMAP
      · have ht : t = 0 := by
          rw [h.type, MULTIBOOT_TAG_TYPE_MMAP] at hmap
          omega
        rw [if_pos hmap] at hrun
        split at hrun
        · cases hrun
        · next entries hloop =>
          rw [Option.map_eq_some_iff] at hrun
          obtain ⟨⟨ret, tags, last⟩, hrest, hvisit⟩ := hrun
          simp only [MbResult.visit, blockResult, MbResult.mk.injEq, List.cons.injEq,
            MbTag.mk.injEq] at hvisit
          obtain ⟨rfl, ⟨⟨-, -, rfl⟩, rfl⟩, rfl⟩ := hvisit
          cases fuel with
          | zero => cases hrest
          | succ fuel =>
            obtain ⟨hzero, hlast⟩ := tagLoop_nil_iff.1 hrest
            have hs0 : s = 0 := by
              unfold u32 at hlast
              omega
            rw [← hlast] at hzero hloop
            obtain ⟨hsteps, hreads⟩ := mmapLoop_block hne (by omega) h.e_lt hloop
            exact ⟨ht, hs0, hsteps, hreads, hzero⟩
      · -- a type beyond the known ones
        have hbig : load32 m (base + 8) > 21 := by
          rw [h.type, MULTIBOOT_TAG_TYPE_MMAP] at hmap
          rw [h.type]
          omega
        rw [if_neg hmap, if_pos hbig, Option.some.injEq] at hrun
        exact absurd (congrArg MbResult.ret hrun) (show (-5 : ℤ) ≠ 0 by decide)
  · rintro ⟨ht, hs0, hsteps, hreads, hzero⟩
    refine ⟨ds.length + 2, ?_⟩
    have hmap : load32 m (base + 8) = MULTIBOOT_TAG_TYPE_MMAP := by
      rw [h.type, ht]
      rfl
    have hplace : u32 (base + 24 + 24 * ds.length + 65536 * s) = base + 24 + 24 * ds.length := by
      rw [hs0]
      exact u32_of_lt (by omega)
    have hloop := mmapLoop_of_stepsOver (show base + 24 + 24 * ds.length < 4294967296 by omega)
      h.e_lt hsteps hreads (Nat.lt_succ_self ds.length)
    have hrest : tagLoop m (ds.length + 1) (base + 24 + 24 * ds.length) =
        some ⟨0, [], base + 24 + 24 * ds.length⟩ := tagLoop_nil_iff.2 ⟨hzero, rfl⟩
    rw [tagLoop]
    simp only [if_neg htype, hnext, hbound, hentry, hstart, if_pos hmap, hplace, hloop, hrest]
    rw [hmap]
    rfl

end YohdaOS.Multiboot
