import YohdaOS.Multiboot.Parse

/-!
# The memory map that sbl.asm hands over

The boot loader runs in real mode: it fills the fields of the boot information with words of 16 bits,
and its addresses are offsets in a segment of 64 KiB.  The kernel reads fields of 32 bits.
-/

namespace YohdaOS.Multiboot

open ByteMem

def MBI_BASE : ℕ := 0x9000

def MBI_OST_MM : ℕ := 8

def MBI_BUF_SIZE : ℕ := 24

/-- The dwords that the BIOS stores for a descriptor. -/
def E820.dwords (d : E820) : List ℕ :=
  [d.addr.toNat % 4294967296, d.addr.toNat / 4294967296, d.len.toNat % 4294967296,
    d.len.toNat / 4294967296, d.type.toNat] ++ (d.attr.map BitVec.toNat).toList

/-- The call of int 0x15 stores the descriptor at `di`, a register of 16 bits. -/
def storeDwords (m : Mem) (di : ℕ) : List ℕ → Mem
  | [] => m
  | w :: ws => storeDwords (store32 m (di % 65536) w) (di + 4) ws

/-- `add word [a], v` -/
def addWord (m : Mem) (a v : ℕ) : Mem := store16 m a (load16 m a + v)

/-- The loop of `_mb_detect_mm` where the BIOS returns these descriptors, the last one with `ebx`
zero. -/
def detectLoop (m : Mem) (di : ℕ) : List E820 → Mem
  | [] => m
  | d :: ds =>
    detectLoop (addWord (storeDwords m di d.dwords) (MBI_BASE + MBI_OST_MM + 4) MBI_BUF_SIZE)
      (di + MBI_BUF_SIZE) ds

/-- The stores of `_mb_detect_mm` before the loop. -/
def mmapHeader (m : Mem) : Mem :=
  let m := store16 m (MBI_BASE + MBI_OST_MM) 6
  let m := store16 m (MBI_BASE + MBI_OST_MM + 4) 16
  let m := store16 m (MBI_BASE + MBI_OST_MM + 8) 24
  store16 m (MBI_BASE + MBI_OST_MM + 12) 0

/-- `_mb_detect_mm`, with the value of `total_size` behind it. -/
def mbDetectMm (m : Mem) (ds : List E820) : Mem × ℕ :=
  let m := detectLoop (mmapHeader m) (MBI_BASE + MBI_OST_MM + 16) ds
  (m, (8 + load16 m (MBI_BASE + MBI_OST_MM + 4)) % 65536)

/-- `_mb_end` -/
def mbEnd (m : Mem) (totalSize : ℕ) : Mem :=
  let bx := totalSize
  let m := store16 m MBI_BASE bx
  let m := store16 m ((MBI_BASE + bx) % 65536) 0
  let m := store16 m ((MBI_BASE + bx + 4) % 65536) 8
  store16 m MBI_BASE ((bx + 8) % 65536)

/-- The memory when the boot information is complete. -/
def sblBuild (m : Mem) (ds : List E820) : Mem :=
  let r := mbDetectMm m ds
  mbEnd r.1 r.2

/-- The kernel sees the physical memory from `vmm.base` on, and below it something else. -/
def kernelView (m low : Mem) : Mem :=
  ⟨fun a => if 0xC0000000 ≤ a then m.byte (a - 0xC0000000) else low.byte a⟩

/-! ## What the stores leave -/

/-- The memories agree from the block on, except for the `n` bytes at `lin` as far as they are in the
segment. -/
def Keeps (lin n : ℕ) (m m' : Mem) : Prop :=
  ∀ x, 0x9000 ≤ x → x < lin ∨ lin + n ≤ x ∨ 65536 ≤ x → m'.byte x = m.byte x

variable {m m' : Mem} {lin n : ℕ}

theorem Keeps.load32 (h : Keeps lin n m m') {a : ℕ} (ha : 0x9000 ≤ a)
    (hout : a + 4 ≤ lin ∨ lin + n ≤ a ∨ 65536 ≤ a) : load32 m' a = load32 m a :=
  load32_congr fun x hlo hhi => h x (by omega) (by omega)

theorem Keeps.load16 (h : Keeps lin n m m') {a : ℕ} (ha : 0x9000 ≤ a)
    (hout : a + 2 ≤ lin ∨ lin + n ≤ a ∨ 65536 ≤ a) : load16 m' a = load16 m a :=
  load16_congr fun x hlo hhi => h x (by omega) (by omega)

/-- The dwords are in place where they are in the segment, and nothing else of the block changes. -/
theorem storeDwords_spec {ws : List ℕ} (hws : ∀ w ∈ ws, w < 4294967296) (hlin : 0x9000 ≤ lin)
    (halign : lin % 4 = 0) (hend : lin + 4 * ws.length ≤ 102400) :
    Keeps lin (4 * ws.length) m (storeDwords m lin ws) ∧
      ∀ i < ws.length, lin + 4 * i < 65536 →
        load32 (storeDwords m lin ws) (lin + 4 * i) = ws.getD i 0 := by
  induction ws generalizing m lin with
  | nil => exact ⟨fun _ _ _ => rfl, fun i hi => absurd hi (Nat.not_lt_zero i)⟩
  | cons w ws ih =>
    have hlen : (w :: ws).length = ws.length + 1 := rfl
    have hfirst : Keeps lin 4 m (store32 m (lin % 65536) w) := by
      intro x hx hout
      apply frame_store32
      omega
    obtain ⟨hkeep, hplace⟩ := @ih (store32 m (lin % 65536) w) (lin + 4)
      (fun v hv => hws v (List.mem_cons_of_mem w hv)) (by omega) (by omega) (by omega)
    rw [storeDwords]
    constructor
    · intro x hx hout
      rw [hkeep x hx (by omega), hfirst x hx (by omega)]
    · intro i hi hlt
      cases i with
      | zero =>
        change load32 _ lin = w
        rw [hkeep.load32 hlin (by omega), Nat.mod_eq_of_lt (by omega),
          load32_store32 _ _ (hws w List.mem_cons_self)]
      | succ i =>
        rw [show lin + 4 * (i + 1) = lin + 4 + 4 * i by ring]
        exact hplace i (by omega) (by omega)

theorem E820.dwords_lt (d : E820) : ∀ w ∈ d.dwords, w < 4294967296 := by
  obtain ⟨addr, len, type, attr⟩ := d
  have haddr := addr.isLt
  have hlen := len.isLt
  have htype := type.isLt
  cases attr with
  | none =>
    simp only [dwords, Option.map_none, Option.toList_none, List.append_nil, List.forall_mem_cons]
    refine ⟨by omega, by omega, by omega, by omega, by omega, List.forall_mem_nil _⟩
  | some a =>
    have ha := a.isLt
    simp only [dwords, Option.map_some, Option.toList_some, List.cons_append, List.nil_append,
      List.forall_mem_cons]
    refine ⟨by omega, by omega, by omega, by omega, by omega, by omega, List.forall_mem_nil _⟩

theorem E820.dwords_length (d : E820) : 5 ≤ d.dwords.length ∧ d.dwords.length ≤ 6 := by
  obtain ⟨addr, len, type, attr⟩ := d
  cases attr with
  | none => exact ⟨le_rfl, Nat.le_succ 5⟩
  | some a => exact ⟨Nat.le_succ 5, le_rfl⟩

/-- The descriptors are in place from `lin` on, as far as they are in the segment. -/
def Placed (m : Mem) : ℕ → List E820 → Prop
  | _, [] => True
  | lin, d :: ds => (∀ i < 5, lin + 4 * i < 65536 → load32 m (lin + 4 * i) = d.dwords.getD i 0) ∧
      Placed m (lin + 24) ds

/-- The first descriptor is in place, the size counts it, and the rest of the block is as it was. -/
theorem detectStep_spec (d : E820) (hlin : 0x9018 ≤ lin) (halign : lin % 4 = 0)
    (hend : lin + 24 ≤ 102400) (hsize : load16 m 0x900C + 24 < 65536) :
    (∀ x, 0x9000 ≤ x → x < lin ∨ lin + 24 ≤ x ∨ 65536 ≤ x → x < 0x900C ∨ 0x900E ≤ x →
      (addWord (storeDwords m lin d.dwords) 0x900C 24).byte x = m.byte x) ∧
      (∀ i < 5, lin + 4 * i < 65536 →
        load32 (addWord (storeDwords m lin d.dwords) 0x900C 24) (lin + 4 * i) = d.dwords.getD i 0) ∧
      load16 (addWord (storeDwords m lin d.dwords) 0x900C 24) 0x900C = load16 m 0x900C + 24 := by
  obtain ⟨hlen, hlen'⟩ := d.dwords_length
  obtain ⟨hkeep, hplace⟩ := storeDwords_spec (m := m) d.dwords_lt (by omega : 0x9000 ≤ lin) halign
    (by omega)
  refine ⟨fun x hx hout hsz => ?_, fun i hi hlt => ?_, ?_⟩
  · rw [addWord, frame_store16 _ _ _ x (by omega), hkeep x hx (by omega)]
  · rw [addWord, load32_store16_of_disjoint _ _ (by omega)]
    exact hplace i (by omega) hlt
  · rw [addWord, load16_store16, hkeep.load16 (by decide) (by omega)]
    omega

/-- What the loop leaves. -/
theorem detectLoop_spec {ds : List E820} (hlin : 0x9018 ≤ lin) (halign : lin % 4 = 0)
    (hend : lin + 24 * ds.length ≤ 102400) (hsize : load16 m 0x900C + 24 * ds.length < 65536) :
    (∀ x, 0x9000 ≤ x → x < lin ∨ lin + 24 * ds.length ≤ x ∨ 65536 ≤ x → x < 0x900C ∨ 0x900E ≤ x →
      (detectLoop m lin ds).byte x = m.byte x) ∧
      Placed (detectLoop m lin ds) lin ds ∧
      load16 (detectLoop m lin ds) 0x900C = load16 m 0x900C + 24 * ds.length := by
  induction ds generalizing m lin with
  | nil => exact ⟨fun _ _ _ _ => rfl, trivial, rfl⟩
  | cons d ds ih =>
    have hlen : (d :: ds).length = ds.length + 1 := rfl
    obtain ⟨hkeep, hplace, hcount⟩ :=
      detectStep_spec (m := m) d hlin halign (by omega) (by omega)
    obtain ⟨hkeep', hplaced, hcount'⟩ := @ih
      (addWord (storeDwords m lin d.dwords) 0x900C 24) (lin + 24) (by omega) (by omega) (by omega)
      (by omega)
    change _ ∧ Placed (detectLoop (addWord (storeDwords m lin d.dwords) 0x900C 24) (lin + 24) ds)
      lin (d :: ds) ∧ _
    refine ⟨fun x hx hout hsz => ?_, ⟨fun i hi hlt => ?_, hplaced⟩, ?_⟩
    · exact (hkeep' x hx (by omega) hsz).trans (hkeep x hx (by omega) hsz)
    · rw [← hplace i hi hlt]
      exact load32_congr fun x hlo hhi => hkeep' x (by omega) (by omega) (by omega)
    · refine hcount'.trans ?_
      omega

theorem Placed.congr {ds : List E820} (h : Placed m lin ds)
    (hsame : ∀ x, lin ≤ x → x < lin + 24 * ds.length → x < 65536 → m'.byte x = m.byte x)
    (halign : lin % 4 = 0) : Placed m' lin ds := by
  induction ds generalizing lin with
  | nil => trivial
  | cons d ds ih =>
    have hlen : (d :: ds).length = ds.length + 1 := rfl
    refine ⟨fun i hi hlt => ?_, ih h.2 (fun x hlo hhi => hsame x (by omega) (by omega)) (by omega)⟩
    rw [← h.1 i hi hlt]
    exact load32_congr fun x hlo hhi => hsame x (by omega) (by omega) (by omega)

/-- The header has its low halves, and nothing else changes. -/
theorem mmapHeader_spec (m : Mem) :
    load32 (mmapHeader m) 0x9008 = 6 + 65536 * load16 m 0x900A ∧
      load16 (mmapHeader m) 0x900C = 16 ∧ load16 (mmapHeader m) 0x900E = load16 m 0x900E ∧
      load32 (mmapHeader m) 0x9010 = 24 + 65536 * load16 m 0x9012 ∧
      ∀ x, 0x9018 ≤ x → (mmapHeader m).byte x = m.byte x := by
  change load32 (store16 (store16 (store16 (store16 m 0x9008 6) 0x900C 16) 0x9010 24) 0x9014 0) _ = _ ∧
    load16 (store16 (store16 (store16 (store16 m 0x9008 6) 0x900C 16) 0x9010 24) 0x9014 0) _ = _ ∧
    load16 (store16 (store16 (store16 (store16 m 0x9008 6) 0x900C 16) 0x9010 24) 0x9014 0) _ = _ ∧
    load32 (store16 (store16 (store16 (store16 m 0x9008 6) 0x900C 16) 0x9010 24) 0x9014 0) _ = _ ∧
    ∀ x, 0x9018 ≤ x →
      (store16 (store16 (store16 (store16 m 0x9008 6) 0x900C 16) 0x9010 24) 0x9014 0).byte x = _
  have hdisj (m : Mem) (v : ℕ) {a b : ℕ} (h : b + 2 ≤ a ∨ a + 2 ≤ b) :
      load16 (store16 m a v) b = load16 m b := load16_store16_of_disjoint m v h
  refine ⟨?_, ?_, ?_, ?_, fun x hx => ?_⟩
  · rw [load32_eq_halves, hdisj _ _ (by decide), hdisj _ _ (by decide), hdisj _ _ (by decide),
      load16_store16, hdisj _ _ (by decide), hdisj _ _ (by decide), hdisj _ _ (by decide),
      hdisj _ _ (by decide)]
  · rw [hdisj _ _ (by decide), hdisj _ _ (by decide), load16_store16]
  · rw [hdisj _ _ (by decide), hdisj _ _ (by decide), hdisj _ _ (by decide), hdisj _ _ (by decide)]
  · rw [load32_eq_halves, hdisj _ _ (by decide), load16_store16, hdisj _ _ (by decide),
      hdisj _ _ (by decide), hdisj _ _ (by decide), hdisj _ _ (by decide)]
  · rw [frame_store16 _ _ _ x (by omega), frame_store16 _ _ _ x (by omega),
      frame_store16 _ _ _ x (by omega), frame_store16 _ _ _ x (by omega)]

/-- The end tag has its low halves where it is in the segment. -/
theorem mbEnd_spec (m : Mem) {t : ℕ} (hlo : 24 ≤ t) (hhi : t + 8 < 65536) (halign : t % 8 = 0) :
    (∀ x, 0x9002 ≤ x → x < 0x9000 + t ∨ 0x9000 + t + 8 ≤ x ∨ 65536 ≤ x →
      (mbEnd m t).byte x = m.byte x) ∧
      (0x9000 + t + 8 ≤ 65536 →
        load32 (mbEnd m t) (0x9000 + t) = 65536 * load16 m (0x9000 + t + 2)) := by
  change (∀ x, 0x9002 ≤ x → x < 0x9000 + t ∨ 0x9000 + t + 8 ≤ x ∨ 65536 ≤ x →
    (store16 (store16 (store16 (store16 m 0x9000 t) ((0x9000 + t) % 65536) 0)
      ((0x9000 + t + 4) % 65536) 8) 0x9000 ((t + 8) % 65536)).byte x = m.byte x) ∧
    (0x9000 + t + 8 ≤ 65536 →
      load32 (store16 (store16 (store16 (store16 m 0x9000 t) ((0x9000 + t) % 65536) 0)
        ((0x9000 + t + 4) % 65536) 8) 0x9000 ((t + 8) % 65536)) (0x9000 + t) = _)
  constructor
  · intro x hx hout
    rw [frame_store16 _ _ _ x (by omega), frame_store16 _ _ _ x (by omega),
      frame_store16 _ _ _ x (by omega), frame_store16 _ _ _ x (by omega)]
  · intro hin
    rw [Nat.mod_eq_of_lt (by omega : 0x9000 + t < 65536),
      Nat.mod_eq_of_lt (by omega : 0x9000 + t + 4 < 65536),
      load32_store16_of_disjoint _ _ (by omega), load32_store16_of_disjoint _ _ (by omega),
      load32_eq_halves, load16_store16, load16_store16_of_disjoint _ _ (by omega),
      load16_store16_of_disjoint _ _ (by omega)]
    omega

/-- What the boot loader leaves of the block: low halves and descriptors are as they have to be as far
as they are in the segment, everything else is what the memory held before. -/
theorem sblBuild_spec (m : Mem) {ds : List E820} (hlen : 24 * ds.length + 32 < 65536) :
    load32 (sblBuild m ds) 0x9008 = 6 + 65536 * load16 m 0x900A ∧
      load32 (sblBuild m ds) 0x900C = 16 + 24 * ds.length + 65536 * load16 m 0x900E ∧
      load32 (sblBuild m ds) 0x9010 = 24 + 65536 * load16 m 0x9012 ∧
      Placed (sblBuild m ds) 0x9018 ds ∧
      (∀ x, 65536 ≤ x → (sblBuild m ds).byte x = m.byte x) ∧
      (0x9018 + 24 * ds.length + 8 ≤ 65536 → load32 (sblBuild m ds) (0x9018 + 24 * ds.length) =
        65536 * load16 m (0x9018 + 24 * ds.length + 2)) := by
  obtain ⟨htype, hsize, hsizeHi, hentry, hrest⟩ := mmapHeader_spec m
  obtain ⟨hkeep, hplaced, hcount⟩ := detectLoop_spec (show 0x9018 ≤ 0x9018 from le_rfl) (by decide)
    (show 0x9018 + 24 * ds.length ≤ 102400 by omega)
    (show load16 (mmapHeader m) 0x900C + 24 * ds.length < 65536 by omega)
  rw [hsize] at hcount
  have htotal : (8 + load16 (detectLoop (mmapHeader m) 0x9018 ds) 0x900C) % 65536 =
      24 + 24 * ds.length := by
    rw [hcount]
    omega
  have hbuild : sblBuild m ds =
      mbEnd (detectLoop (mmapHeader m) 0x9018 ds) (24 + 24 * ds.length) := by
    rw [← htotal]
    rfl
  obtain ⟨hframe, hendTag⟩ := mbEnd_spec (detectLoop (mmapHeader m) 0x9018 ds)
    (t := 24 + 24 * ds.length) (by omega) (by omega) (by omega)
  rw [← hbuild] at hframe hendTag
  refine ⟨?_, ?_, ?_, ?_, fun x hx => ?_, fun hin => ?_⟩
  · rw [load32_congr fun x hlo hhi => hframe x (by omega) (by omega), ← htype]
    exact load32_congr fun x hlo hhi => hkeep x (by omega) (by omega) (by omega)
  · rw [load32_congr fun x hlo hhi => hframe x (by omega) (by omega), load32_eq_halves, hcount,
      load16_congr fun x hlo hhi => hkeep x (by omega) (by omega) (by omega), hsizeHi]
  · rw [load32_congr fun x hlo hhi => hframe x (by omega) (by omega), ← hentry]
    exact load32_congr fun x hlo hhi => hkeep x (by omega) (by omega) (by omega)
  · exact hplaced.congr (fun x hlo hhi _ => hframe x (by omega) (by omega)) (by decide)
  · rw [hframe x (by omega) (by omega), hkeep x (by omega) (by omega) (by omega),
      hrest x (by omega)]
  · have hplace : 0x9000 + (24 + 24 * ds.length) = 0x9018 + 24 * ds.length := by ring
    rw [hplace] at hendTag
    rw [hendTag (by omega),
      load16_congr fun x hlo hhi => hkeep x (by omega) (by omega) (by omega),
      load16_congr fun x hlo hhi => hrest x (by omega)]

/-! ## What the kernel reads -/

theorem load32_kernelView (m low : Mem) (x : ℕ) :
    load32 (kernelView m low) (0xC0000000 + x) = load32 m x := by
  have h8 (y : ℕ) : load8 (kernelView m low) (0xC0000000 + y) = load8 m y := by
    have hbyte : (kernelView m low).byte (0xC0000000 + y) = m.byte (0xC0000000 + y - 0xC0000000) :=
      if_pos (by omega)
    rw [load8, hbyte, Nat.add_sub_cancel_left, load8]
  have h8' (j : ℕ) : load8 (kernelView m low) (0xC0000000 + x + j) = load8 m (x + j) := by
    rw [Nat.add_assoc, h8]
  unfold load32
  rw [h8, h8', h8', h8']

/-- An entry is the descriptor exactly when its five dwords are. -/
theorem readEntry_eq_iff (d : E820) (p : ℕ) :
    readEntry m p = d.entry p ↔ ∀ i < 5, load32 m (p + 4 * i) = d.dwords.getD i 0 := by
  have h0 := load32_lt m p
  have h1 := load32_lt m (p + 4)
  have h2 := load32_lt m (p + 8)
  have h3 := load32_lt m (p + 12)
  have haddr := d.addr.isLt
  have hlen := d.len.isLt
  have hfields : readEntry m p = d.entry p ↔
      load32 m p + 4294967296 * load32 m (p + 4) = d.addr.toNat ∧
        load32 m (p + 8) + 4294967296 * load32 m (p + 8 + 4) = d.len.toNat ∧
          load32 m (p + 16) = d.type.toNat := by
    rw [readEntry, E820.entry, MmapEntry.mk.injEq]
    exact and_iff_right rfl
  rw [hfields, show p + 8 + 4 = p + 12 by omega]
  constructor
  · rintro ⟨ha, hl, ht⟩ i hi
    interval_cases i
    · change load32 m p = d.addr.toNat % 4294967296
      omega
    · change load32 m (p + 4) = d.addr.toNat / 4294967296
      omega
    · change load32 m (p + 8) = d.len.toNat % 4294967296
      omega
    · change load32 m (p + 12) = d.len.toNat / 4294967296
      omega
    · exact ht
  · intro h
    have e0 : load32 m p = d.addr.toNat % 4294967296 := h 0 (by decide)
    have e1 : load32 m (p + 4) = d.addr.toNat / 4294967296 := h 1 (by decide)
    have e2 : load32 m (p + 8) = d.len.toNat % 4294967296 := h 2 (by decide)
    have e3 : load32 m (p + 12) = d.len.toNat / 4294967296 := h 3 (by decide)
    have e4 : load32 m (p + 16) = d.type.toNat := h 4 (by decide)
    exact ⟨by omega, by omega, e4⟩

/-- The descriptors from `lin` on that are behind the segment are there already. -/
def Beyond (m : Mem) : ℕ → List E820 → Prop
  | _, [] => True
  | lin, d :: ds => (∀ i < 5, 65536 ≤ lin + 4 * i → load32 m (lin + 4 * i) = d.dwords.getD i 0) ∧
      Beyond m (lin + 24) ds

theorem beyond_of_le {ds : List E820} (h : lin + 24 * ds.length ≤ 65536) : Beyond m lin ds := by
  induction ds generalizing lin with
  | nil => trivial
  | cons d ds ih =>
    have hlen : (d :: ds).length = ds.length + 1 := rfl
    refine ⟨fun i hi hout => ?_, ih (by omega)⟩
    omega

/-- The kernel reads the descriptors exactly when those behind the segment were there. -/
theorem readsAt_kernelView_iff (low : Mem) {ds : List E820} (h : Placed m' lin ds)
    (hsame : ∀ x, 65536 ≤ x → m'.byte x = m.byte x) :
    ReadsAt (kernelView m' low) (0xC0000000 + lin) ds ↔ Beyond m lin ds := by
  induction ds generalizing lin with
  | nil => exact Iff.rfl
  | cons d ds ih =>
    rw [ReadsAt, Beyond, Nat.add_assoc, ih h.2, readEntry_eq_iff]
    apply and_congr_left'
    apply forall₂_congr
    intro i hi
    rw [Nat.add_assoc, load32_kernelView]
    by_cases hout : 65536 ≤ lin + 4 * i
    · rw [load32_congr fun x hlo _ => hsame x (by omega)]
      exact ⟨fun heq _ => heq, fun heq => heq hout⟩
    · exact iff_of_true (h.1 i hi (by omega)) fun h => absurd h hout

/-- The memory from the block on, as it has to be before: zero in the high halves that the boot loader
leaves alone, and complete behind the segment. -/
structure Prepared (m : Mem) (ds : List E820) : Prop where
  type : load16 m 0x900A = 0
  size : load16 m 0x900E = 0
  entrySize : StepsOver 0xC0009018 ds.length (load16 m 0x9012)
  entries : Beyond m 0x9018 ds
  endTag : if 0x9018 + 24 * ds.length + 8 ≤ 65536 then load16 m (0x9018 + 24 * ds.length + 2) = 0
    else load32 m (0x9018 + 24 * ds.length) = 0

theorem handedOver_sblBuild_iff (m low : Mem) {ds : List E820} (hne : ds ≠ [])
    (hlen : 24 * ds.length + 32 < 65536) :
    HandedOver (kernelView (sblBuild m ds) low) 0xC0009000 ds ↔ Prepared m ds := by
  obtain ⟨htype, hsize, hentry, hplaced, hsame, hendTag⟩ := sblBuild_spec m hlen
  have hhalves : Halves (kernelView (sblBuild m ds) low) 0xC0009000 ds.length (load16 m 0x900A)
      (load16 m 0x900E) (load16 m 0x9012) :=
    ⟨(load32_kernelView _ low 0x9008).trans htype, (load32_kernelView _ low 0x900C).trans hsize,
      (load32_kernelView _ low 0x9010).trans hentry, load16_lt _ _, load16_lt _ _, load16_lt _ _⟩
  have hzero : load32 (kernelView (sblBuild m ds) low) (0xC0009000 + 24 + 24 * ds.length) = 0 ↔
      if 0x9018 + 24 * ds.length + 8 ≤ 65536 then load16 m (0x9018 + 24 * ds.length + 2) = 0
      else load32 m (0x9018 + 24 * ds.length) = 0 := by
    rw [show 0xC0009000 + 24 + 24 * ds.length = 0xC0000000 + (0x9018 + 24 * ds.length) by omega,
      load32_kernelView]
    split_ifs with hin
    · rw [hendTag hin]
      omega
    · rw [load32_congr fun x hlo _ => hsame x (by omega)]
  have hreads : ReadsAt (kernelView (sblBuild m ds) low) (0xC0009000 + 24) ds ↔
      Beyond m 0x9018 ds := readsAt_kernelView_iff low hplaced hsame
  rw [handedOver_iff hne (by decide) (by omega) hlen hhalves, hzero, hreads]
  constructor
  · rintro ⟨ht, hs, he, hb, hz⟩
    exact ⟨ht, hs, he, hb, hz⟩
  · rintro ⟨ht, hs, he, hb, hz⟩
    exact ⟨ht, hs, he, hb, hz⟩

/-- The kernel walks the memory map that the boot loader built, whatever the memory held, exactly when
the fields that are read and not written were as they have to be. -/
theorem boot_map_handover_iff (m low : Mem) (ds : List E820) (hne : ds ≠ [])
    (hlen : 24 * ds.length + 32 < 65536) :
    HandedOver (kernelView (sblBuild m ds) low) 0xC0009000 ds ↔ Prepared m ds :=
  handedOver_sblBuild_iff m low hne hlen

/-- The first megabyte of a PC. -/
def lowMemory : E820 := ⟨0, 0x9FC00, 1, none⟩

/-- Two descriptors in memory of zeros. -/
theorem boot_map_handover_iff_zero :
    HandedOver (kernelView (sblBuild ⟨fun _ => 0⟩ [lowMemory, lowMemory]) ⟨fun _ => 0⟩) 0xC0009000
      [lowMemory, lowMemory] := by
  apply (boot_map_handover_iff ⟨fun _ => 0⟩ ⟨fun _ => 0⟩ [lowMemory, lowMemory] (by decide)
    (by decide)).2
  exact ⟨by decide, by decide, Or.inl (by decide), beyond_of_le (by decide), by decide⟩

/-- In memory of ones the type of the tag is not that of a memory map. -/
theorem boot_map_handover_fails : ¬∀ (m low : Mem) (ds : List E820), ds ≠ [] →
    24 * ds.length + 32 < 65536 → HandedOver (kernelView (sblBuild m ds) low) 0xC0009000 ds := by
  intro hall
  have h := hall ⟨fun _ => 0xFF⟩ ⟨fun _ => 0⟩ [lowMemory] (by decide) (by decide)
  have hprepared := (handedOver_sblBuild_iff _ _ (by decide) (by decide)).1 h
  exact absurd hprepared.type (by decide)

end YohdaOS.Multiboot
