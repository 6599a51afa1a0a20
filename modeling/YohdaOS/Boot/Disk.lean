import YohdaOS.Boot.Chs
import YohdaOS.Lib.Drive

/-!
# The disk loop of sbl.asm

The secondary boot loader reads the kernel sector by sector.  ES:BX is `0x1000:0` for the first read
and `0:0` from then on, so that the sectors go over the interrupt vectors.  `rep movsb` works with
16-bit registers here: it copies round `i` from there to `512 * i`, over the data of the BIOS, the
stack, and the loader itself in the end.
-/

namespace YohdaOS.Boot

open ByteMem Drive

/-- The machine as the loop finds it: the A20 line, whether fbl.asm came through `_part_read`, whether
it left `_disk_get_ext_infos` without its `popa`, and the memory. -/
structure Setup where
  a20 : Bool
  partRead : Bool
  extFailed : Bool
  mem : Mem

/-- The bytes of a sector. -/
abbrev Sector := ℕ → BitVec 8

/-- The memory of the loader, apart from its words that are in `vars`.  DS, SS and BX are 0. -/
structure Loader where
  mem : Mem
  es : ℕ
  kern32EntryPoint : ℕ
  vars : DiskVars

/-- The four sectors of sbl.asm. -/
def Image (x : ℕ) : Prop := 0x7E00 ≤ x ∧ x < 0x8600

instance (x : ℕ) : Decidable (Image x) := inferInstanceAs (Decidable (_ ∧ _))

/-- What the BIOS writes, byte by byte to the addresses `f`. -/
def putSector (f : ℕ → ℕ) (sector : Sector) : ℕ → Mem → Mem
  | 0, m => m
  | n + 1, m => ⟨Function.update (putSector f sector n m).byte (f n) (sector n)⟩

/-- `rep movsb` from DS:SI to ES:DI, with both segments 0. -/
def repMovsb : ℕ → ℕ → ℕ → Mem → Mem
  | 0, _, _, m => m
  | cx + 1, si, di, m =>
    repMovsb cx ((si + 1) % 65536) ((di + 1) % 65536) (store8 m di (load8 m si))

namespace Setup

variable (c : Setup)

/-- The stack pointer in the loop, behind its `pusha`. -/
def sp : ℕ := 0x7C00 - (if c.partRead then 4 else 0) - (if c.extFailed then 16 else 0) - 16

/-- The address on the bus of one below 2 MiB. -/
def line (a : ℕ) : ℕ := if c.a20 then a else a % 0x100000

/-- The address of byte `j` of the buffer ES:0. -/
def buffer (es j : ℕ) : ℕ := c.line (16 * es + j)

/-- The stack that the BIOS is called on. -/
def InStack (x : ℕ) : Prop := 0x7A00 ≤ x ∧ x < c.sp

/-- `_load_kernel` as fbl.asm hands over: the kernel of `kern32Secs` sectors, a `dw`, is behind the
two boot loaders. -/
def loadKernel (geo : Geometry) (kern32Secs : ℕ) : Loader :=
  ⟨c.mem, 0x1000, 0x100000, ⟨geo, 0, 0, 6, BitVec.ofNat 16 kern32Secs, 5⟩⟩

end Setup

namespace Loader

variable (c : Setup) (s : Loader)

def di : ℕ := s.kern32EntryPoint % 65536

/-- Neither the buffer nor the copy is over the loader. -/
def Keeps : Prop := ∀ j < 512, ¬Image (c.buffer s.es j) ∧ ¬Image ((s.di + j) % 65536)

instance : Decidable (s.Keeps c) :=
  Nat.decidableBallLT 512 fun j _ => ¬Image (c.buffer s.es j) ∧ ¬Image ((s.di + j) % 65536)

/-- The memory behind the copy of a sector. -/
def store (sector : Sector) : Mem :=
  let m := putSector (c.buffer s.es) sector 512 s.mem
  -- push es
  let m := store16 m (c.sp - 2) 0
  let m := repMovsb 0x200 (0x10000 % 65536) s.di m
  store32 m (c.line 0x100000) 0xffeedd22

/-- ES is popped, and the 16 bits of DI have moved in EDI. -/
def next (sector : Sector) (v : DiskVars) : Loader :=
  ⟨s.store c sector, load16 (s.store c sector) (c.sp - 2),
    s.kern32EntryPoint / 65536 * 65536 + (s.di + 0x200) % 65536, v⟩

end Loader

section

variable (c : Setup) (int13 : Mem → ℕ → Request → Option Sector)

/-- One round of `_disk_loop`.  `int13` is the sector that the BIOS reads, where it reads one; the
vector `0x13` has to be the one of the BIOS still. -/
def diskRound (s : Loader) : Except LoopEnd Loader :=
  if load32 s.mem 0x4C ≠ load32 c.mem 0x4C then .error .elsewhere
  else
    match int13 s.mem s.es s.vars.request with
    | none => .error .error
    | some sector =>
      if s.Keeps c then s.vars.count.updateChs.map (s.next c sector) else .error .overwritten

/-- The requests of the loop and how it is left, if it is within `fuel` rounds. -/
def diskLoop : ℕ → Loader → Option (List Request × LoopEnd)
  | 0, _ => none
  | fuel + 1, s =>
    match diskRound c int13 s with
    | .ok s' => (diskLoop fuel s').map fun r => (s.vars.request :: r.1, r.2)
    | .error e => some ([s.vars.request], e)

/-- The loop asks for the sectors of the kernel, each once and in their order, and is left through
`_disk_loop_exit`. -/
def LoadsKernel (geo : Geometry) (kern32Secs : ℕ) : Prop :=
  ∃ fuel, diskLoop c int13 fuel (c.loadKernel geo kern32Secs) =
    some ((List.range kern32Secs).map fun i => requestFor geo.secs.toNat geo.heads.toNat (5 + i),
      .diskLoopExit)

end

/-! ## What the BIOS relies on -/

/-- The bytes of the first megabyte that the BIOS may rely on: its vector is one of them, and none is
in vector 0, on the stack of the loaders or between there and the end of the first buffer. -/
structure Owns (own : ℕ → Prop) : Prop where
  vector : ∀ a, 0x4C ≤ a → a < 0x50 → own a
  low : ∀ a, own a → 4 ≤ a
  apart : ∀ a, own a → a < 0x7A00 ∨ 0x10200 ≤ a
  high : ∀ a, own a → a < 0x100000

/-- Sector `i` of the kernel. -/
def kernelSector (disk : Request → Sector) (geo : Geometry) (i : ℕ) : Sector :=
  disk (requestFor geo.secs.toNat geo.heads.toNat (5 + i))

namespace Setup

variable (c : Setup) (own : ℕ → Prop) (disk : Request → Sector)

/-- The bytes that the BIOS relies on are as the loop found them. -/
def Agrees (m : Mem) : Prop := ∀ a, own a → m.byte a = c.mem.byte a

/-- As long as the bytes it relies on are as they were, the BIOS reads the sectors of the disk, into
any buffer that is not on its stack. -/
def Serves (cx : BitVec 16) (geo : Geometry) (int13 : Mem → ℕ → Request → Option Sector) : Prop :=
  ∀ m es, c.Agrees own m → (∀ j < 512, ¬c.InStack (c.buffer es j)) →
    ∀ lba < cylinders cx * (geo.secs.toNat * geo.heads.toNat),
      int13 m es (requestFor geo.secs.toNat geo.heads.toNat lba) =
        some (disk (requestFor geo.secs.toNat geo.heads.toNat lba))

/-- The sector has what the BIOS relies on at both places to which round `i` brings it. -/
def Carries (i : ℕ) (sector : Sector) : Prop :=
  ∀ j < 512, (own j → sector j = c.mem.byte j) ∧
    (own (512 * i + j) → sector j = c.mem.byte (512 * i + j))

/-- The word that is popped to ES behind the copy of a sector to `0x7A00`. -/
def popped (sector : Sector) : ℕ :=
  (sector (c.sp - 2 - 0x7A00)).toNat + 256 * (sector (c.sp - 2 - 0x7A00 + 1)).toNat

/-- The buffer ES:0 is neither on the stack nor over the loader. -/
def Aside (es : ℕ) : Prop := ∀ j < 512, ¬c.InStack (c.buffer es j) ∧ ¬Image (c.buffer es j)

/-- A kernel of `n` sectors is not copied over the loader, all sectors between the first and the last
one carry what the BIOS relies on, and the 62nd one, which is copied over the stack, has the 63rd one
read where neither the stack nor the loader is. -/
structure Harmless (geo : Geometry) (n : ℕ) : Prop where
  le : n ≤ 63
  carries : ∀ i, 1 ≤ i → i + 1 < n → c.Carries own i (kernelSector disk geo i)
  aside : n = 63 → c.Aside (c.popped (kernelSector disk geo 61))

end Setup

variable {c : Setup} {own : ℕ → Prop} {disk : Request → Sector} {s : Loader} {sector : Sector}
  {int13 : Mem → ℕ → Request → Option Sector} {m : Mem} {x i : ℕ}

/-! ## Stores -/

theorem Setup.sp_bounds (c : Setup) : 0x7BDC ≤ c.sp ∧ c.sp ≤ 0x7BF0 := by
  unfold Setup.sp
  split_ifs <;> decide

theorem Setup.line_of_lt (c : Setup) {a : ℕ} (ha : a < 0x100000) : c.line a = a := by
  unfold Setup.line
  split_ifs
  · rfl
  · exact Nat.mod_eq_of_lt ha

theorem byte_putSector_of_ne {f : ℕ → ℕ} {n : ℕ} (h : ∀ j < n, x ≠ f j) :
    (putSector f sector n m).byte x = m.byte x := by
  induction n with
  | zero => rfl
  | succ n ih =>
    have hrest := ih fun j hj => h j (Nat.lt_succ_of_lt hj)
    exact (Function.update_of_ne (h n n.lt_succ_self) _ _).trans hrest

theorem byte_putSector {a n j : ℕ} {f : ℕ → ℕ} (hf : ∀ j < n, f j = a + j) (hj : j < n) :
    (putSector f sector n m).byte (a + j) = sector j := by
  induction n with
  | zero => exact absurd hj j.not_lt_zero
  | succ n ih =>
    have hn := hf n n.lt_succ_self
    rcases Nat.lt_succ_iff_lt_or_eq.1 hj with hlt | rfl
    · have hne : a + j ≠ f n := by omega
      exact (Function.update_of_ne hne _ _).trans (ih (fun j hj => hf j (by omega)) hlt)
    · rw [← hn]
      exact Function.update_self _ _ _

/-- The bytes that are still to be copied are not overwritten where the target is behind them, or not
in front of the first one. -/
theorem repMovsb_eq {n si di : ℕ} (hs : si + n ≤ 65535) (hd : di + n ≤ 65535)
    (h : si + n ≤ di ∨ di ≤ si) : repMovsb n si di m = copy m si m di n := by
  induction n generalizing si di m with
  | zero =>
    refine Mem.ext (funext fun x => (byte_copy_of_not ?_).symm)
    omega
  | succ n ih =>
    rw [repMovsb, Nat.mod_eq_of_lt (by omega), Nat.mod_eq_of_lt (by omega),
      ih (by omega) (by omega) (by omega)]
    refine Mem.ext (funext fun x => ?_)
    by_cases hx : di ≤ x ∧ x < di + (n + 1)
    · obtain ⟨j, rfl⟩ := Nat.exists_eq_add_of_le hx.1
      rw [byte_copy (by omega)]
      rcases j with _ | j
      · rw [byte_copy_of_not (by omega), Nat.add_zero, Nat.add_zero, byte_store8_self, load8,
          BitVec.ofNat_toNat, BitVec.setWidth_eq]
      · have hmove (a : ℕ) : a + (j + 1) = a + 1 + j := by omega
        rw [hmove di, byte_copy (by omega), byte_store8_of_ne _ _ (by omega), hmove si]
    · rw [byte_copy_of_not hx, byte_copy_of_not (by omega), byte_store8_of_ne _ _ (by omega)]

namespace Loader

/-- The memory before the copy. -/
def pushed (c : Setup) (s : Loader) (sector : Sector) : Mem :=
  store16 (putSector (c.buffer s.es) sector 512 s.mem) (c.sp - 2) 0

/-- A byte above vector 0 comes from the copy or is that before it. -/
theorem byte_store (hdi : s.di = 512 * i) (hi : i ≤ 63) (hlo : 4 ≤ x) (hhi : x < 0x100000) :
    (s.store c sector).byte x = if 512 * i ≤ x ∧ x < 512 * i + 512 then
      (s.pushed c sector).byte (x - 512 * i) else (s.pushed c sector).byte x := by
  have hline : c.line 0x100000 = 0 ∨ c.line 0x100000 = 0x100000 := by
    unfold Setup.line
    split_ifs
    · exact Or.inr rfl
    · exact Or.inl rfl
  have hstore : s.store c sector = store32 (copy (s.pushed c sector) 0 (s.pushed c sector) (512 * i)
      512) (c.line 0x100000) 0xffeedd22 := by
    rw [← repMovsb_eq (by decide) (by omega) (by omega), ← hdi]
    rfl
  rw [hstore, frame_store32 _ _ _ x (by omega)]
  by_cases hx : 512 * i ≤ x ∧ x < 512 * i + 512
  · obtain ⟨j, rfl⟩ := Nat.exists_eq_add_of_le hx.1
    rw [if_pos hx, byte_copy (by omega), Nat.zero_add, Nat.add_sub_cancel_left]
  · rw [if_neg hx, byte_copy_of_not hx]

/-- The sector that is read to `0:0`. -/
theorem byte_pushed (hes : s.es = 0) (hx : x < 512) : (s.pushed c sector).byte x = sector x := by
  have hsp := c.sp_bounds
  have hbuffer : ∀ j < 512, c.buffer s.es j = 0 + j := by
    intro j hj
    rw [Setup.buffer, hes]
    exact c.line_of_lt (by omega)
  have hput : (putSector (c.buffer s.es) sector 512 s.mem).byte (0 + x) = sector x :=
    byte_putSector hbuffer hx
  rw [Nat.zero_add] at hput
  rw [pushed, frame_store16 _ _ _ x (by omega), hput]

/-- A byte that is neither in the buffer nor the word that is pushed. -/
theorem byte_pushed_of_not (hbuffer : ∀ j < 512, x ≠ c.buffer s.es j)
    (hx : x < c.sp - 2 ∨ c.sp ≤ x) : (s.pushed c sector).byte x = s.mem.byte x := by
  have hsp := c.sp_bounds
  rw [pushed, frame_store16 _ _ _ x (by omega), byte_putSector_of_ne hbuffer]

end Loader

theorem kernelSector_eq {geo : Geometry} (hi : 5 + i < geo.perCylin) :
    kernelSector disk geo i = disk (geo.request 0 (5 + i)) := by
  rw [kernelSector, requestFor_of_lt hi]

/-! ## Rounds -/

/-- The state before round `i` of a kernel of `n` sectors in the first cylinder. -/
structure AtRound (c : Setup) (disk : Request → Sector) (geo : Geometry) (n i : ℕ) (s : Loader) :
    Prop where
  vars : ∃ t, s.vars = geo.vars 0 (5 + i) (BitVec.ofNat 16 (n - i)) t
  entry : s.kern32EntryPoint = 0x100000 + 512 * i
  es_first : i = 0 → s.es = 0x1000
  es : 1 ≤ i → i ≤ 61 → s.es = 0
  es_last : i = 62 → s.es = c.popped (disk (geo.request 0 66))

section

variable {geo : Geometry} {n : ℕ} (h : AtRound c disk geo n i s)

include h

theorem AtRound.di (hi : i ≤ 63) : s.di = 512 * i := by
  rw [Loader.di, h.entry]
  omega

/-- What is popped is the zero that was pushed, until the copy comes to the stack. -/
theorem AtRound.popped (hi : i ≤ 60) : load16 (s.store c sector) (c.sp - 2) = 0 := by
  have hsp := c.sp_bounds
  have hpushed : load16 (s.pushed c sector) (c.sp - 2) = 0 := load16_store16 _ _ 0
  rw [← hpushed]
  refine load16_congr fun x hlo hhi => ?_
  rw [Loader.byte_store (h.di (by omega)) (by omega) (by omega) (by omega), if_neg (by omega)]

theorem AtRound.popped_last (hi : i = 61) :
    load16 (s.store c sector) (c.sp - 2) = c.popped sector := by
  have hsp := c.sp_bounds
  have hbyte {x : ℕ} (hlo : c.sp - 2 ≤ x) (hhi : x < c.sp) :
      (s.store c sector).byte x = sector (x - 0x7A00) := by
    rw [Loader.byte_store (h.di (by omega)) (by omega) (by omega) (by omega), if_pos (by omega),
      Loader.byte_pushed (h.es (by omega) (by omega)) (by omega), hi]
  have hsub : c.sp - 2 + 1 - 0x7A00 = c.sp - 2 - 0x7A00 + 1 := by omega
  rw [load16, load8, load8, hbyte le_rfl (by omega), hbyte (by omega) (by omega), hsub]
  rfl

theorem AtRound.next (hin : i < n) (hi : i ≤ 62) (hsector : sector = disk (geo.request 0 (5 + i)))
    (t : BitVec 16) :
    AtRound c disk geo n (i + 1)
      (s.next c sector (geo.vars 0 (5 + i + 1) (BitVec.ofNat 16 (n - i) - 1) (t + 1))) := by
  have hpred : BitVec.ofNat 16 (n - i) - 1 = BitVec.ofNat 16 (n - (i + 1)) := by
    rw [show n - i = n - (i + 1) + 1 by omega, ← ofNat_succ, BitVec.add_sub_cancel]
  refine ⟨⟨t + 1, by rw [hpred]; rfl⟩, ?_, (fun h => absurd h i.succ_ne_zero), fun _ hle => ?_,
    fun hlast => ?_⟩
  · change s.kern32EntryPoint / 65536 * 65536 + (s.di + 0x200) % 65536 = _
    rw [h.di (by omega), h.entry]
    omega
  · exact h.popped (by omega)
  · obtain rfl : i = 61 := by omega
    rw [hsector]
    exact h.popped_last rfl

/-- The buffer of all rounds but the 63rd is where no stack and no loader is. -/
theorem AtRound.aside (hi : i ≤ 61) : c.Aside s.es := by
  have hsp := c.sp_bounds
  intro j hj
  have hes : s.es = 0 ∨ s.es = 0x1000 := by
    rcases i.eq_zero_or_pos with h0 | hpos
    · exact Or.inr (h.es_first h0)
    · exact Or.inl (h.es hpos hi)
  have hline : c.buffer s.es j = 16 * s.es + j := c.line_of_lt (by omega)
  rw [hline, Setup.InStack, Image]
  omega

/-- The copy does not come to the loader before the 64th round. -/
theorem AtRound.keeps_iff (hi : i ≤ 63) :
    s.Keeps c ↔ i ≤ 62 ∧ ∀ j < 512, ¬Image (c.buffer s.es j) := by
  rw [Loader.Keeps, h.di hi]
  constructor
  · refine fun hkeeps => ⟨?_, fun j hj => (hkeeps j hj).1⟩
    have hfirst := (hkeeps 0 (by decide)).2
    rw [Image] at hfirst
    omega
  · rintro ⟨hle, hbuffer⟩ j hj
    refine ⟨hbuffer j hj, ?_⟩
    rw [Image]
    omega

end

section

variable {geo : Geometry} {n : ℕ} (h : AtRound c disk geo n i s) (hown : Owns own)
  (hagrees : c.Agrees own s.mem)

include h hown hagrees

/-- The first sector is read to `0x10000`, and the vectors are copied over themselves. -/
theorem AtRound.agrees_first (hi : i = 0) : c.Agrees own (s.store c sector) := by
  have hsp := c.sp_bounds
  intro a ha
  have hlow := hown.low a ha
  have hapart := hown.apart a ha
  have hhigh := hown.high a ha
  have hpushed : (s.pushed c sector).byte a = s.mem.byte a := by
    refine Loader.byte_pushed_of_not (fun j hj => ?_) (by omega)
    rw [Setup.buffer, h.es_first hi, c.line_of_lt (by omega)]
    omega
  rw [Loader.byte_store (h.di (by omega)) (by omega) hlow hhigh, hi, Nat.mul_zero, Nat.sub_zero,
    ite_self, hpushed, hagrees a ha]

theorem AtRound.agrees_iff (hpos : 1 ≤ i) (hi : i ≤ 61) :
    c.Agrees own (s.store c sector) ↔ c.Carries own i sector := by
  have hsp := c.sp_bounds
  have hes := h.es hpos hi
  have hread {j : ℕ} (hj : j < 512) : (s.pushed c sector).byte j = sector j :=
    Loader.byte_pushed hes hj
  have hbyte {x : ℕ} (hlo : 4 ≤ x) (hhi : x < 0x100000) : (s.store c sector).byte x =
      if 512 * i ≤ x ∧ x < 512 * i + 512 then (s.pushed c sector).byte (x - 512 * i)
      else (s.pushed c sector).byte x :=
    Loader.byte_store (h.di (by omega)) (by omega) hlo hhi
  have hcopy {j : ℕ} (hj : j < 512) : (s.store c sector).byte (512 * i + j) = sector j := by
    rw [hbyte (by omega) (by omega), if_pos (by omega), Nat.add_sub_cancel_left, hread hj]
  constructor
  · refine fun hstore j hj => ⟨fun hj' => ?_, fun hj' => ?_⟩
    · have hlow := hown.low j hj'
      rw [← hstore j hj', hbyte hlow (by omega), if_neg (by omega), hread hj]
    · rw [← hstore _ hj', hcopy hj]
  · intro hcarries a ha
    have hlow := hown.low a ha
    have hapart := hown.apart a ha
    by_cases hin : 512 * i ≤ a ∧ a < 512 * i + 512
    · obtain ⟨j, rfl⟩ := Nat.exists_eq_add_of_le hin.1
      rw [hcopy (by omega), (hcarries j (by omega)).2 ha]
    · rw [hbyte hlow (hown.high a ha), if_neg hin]
      by_cases hvector : a < 512
      · rw [hread hvector, (hcarries a hvector).1 ha]
      · rw [Loader.byte_pushed_of_not (fun j hj => ?_) (by omega), hagrees a ha]
        rw [Setup.buffer, hes, c.line_of_lt (by omega)]
        omega

end

/-! ## The loop -/

theorem diskRound_of_read {r : Request} (hreq : s.vars.request = r)
    (hvector : load32 s.mem 0x4C = load32 c.mem 0x4C) (hread : int13 s.mem s.es r = some sector)
    (hkeeps : s.Keeps c) :
    diskRound c int13 s = s.vars.count.updateChs.map (s.next c sector) := by
  subst hreq
  rw [diskRound, if_neg (not_not.2 hvector), hread]
  exact if_pos hkeeps

/-- A round that does not fail has read a sector. -/
theorem diskRound_cases (c : Setup) (int13 : Mem → ℕ → Request → Option Sector) (s : Loader) :
    (∃ e, e ≠ .diskLoopExit ∧ diskRound c int13 s = .error e) ∨
      ∃ sector, int13 s.mem s.es s.vars.request = some sector ∧ s.Keeps c ∧
        diskRound c int13 s = s.vars.count.updateChs.map (s.next c sector) := by
  rw [diskRound]
  by_cases hvector : load32 s.mem 0x4C ≠ load32 c.mem 0x4C
  · exact Or.inl ⟨.elsewhere, by decide, if_pos hvector⟩
  · rw [if_neg hvector]
    cases int13 s.mem s.es s.vars.request with
    | none => exact Or.inl ⟨.error, by decide, rfl⟩
    | some sector =>
      by_cases hkeeps : s.Keeps c
      · exact Or.inr ⟨sector, rfl, hkeeps, if_pos hkeeps⟩
      · exact Or.inl ⟨.overwritten, by decide, if_neg hkeeps⟩

section

variable {geo : Geometry} {cyl k t : BitVec 16} {p fuel : ℕ} {reqs : List Request}

/-- The first round of a loop that is left through `_disk_loop_exit`: it goes on in the cylinder, or
is the last one, or goes on in the next cylinder with a negative number of sectors left. -/
theorem diskLoop_cases (hv : geo.Valid) (hp : p < geo.perCylin) (hvars : s.vars = geo.vars cyl p k t)
    (h : diskLoop c int13 (fuel + 1) s = some (reqs, .diskLoopExit)) :
    ∃ sector, int13 s.mem s.es (geo.request cyl p) = some sector ∧ s.Keeps c ∧
      ((p + 1 < geo.perCylin ∧ ∃ rest, reqs = geo.request cyl p :: rest ∧ diskLoop c int13 fuel
          (s.next c sector (geo.vars cyl (p + 1) (k - 1) (t + 1))) = some (rest, .diskLoopExit)) ∨
        (p + 1 = geo.perCylin ∧ k - 1 = 0 ∧ reqs = [geo.request cyl p]) ∨
        (p + 1 = geo.perCylin ∧ (k - 1).slt 0 = true ∧ ∃ rest, diskLoop c int13 fuel
          (s.next c sector (geo.vars (cyl + 1) 0 (k - 1) (t + 1))) = some (rest, .diskLoopExit))) := by
  have hreq : s.vars.request = geo.request cyl p := by rw [hvars, Geometry.request_vars]
  have hrest {l : Option (List Request × LoopEnd)} {req : Request}
      (hl : l.map (fun r => (req :: r.1, r.2)) = some (reqs, .diskLoopExit)) :
      ∃ rest, reqs = req :: rest ∧ l = some (rest, .diskLoopExit) := by
    obtain ⟨⟨rest, e⟩, hr, hreqs⟩ := Option.map_eq_some_iff.1 hl
    obtain ⟨rfl, rfl⟩ := Prod.mk.inj hreqs
    exact ⟨rest, rfl, hr⟩
  rw [diskLoop] at h
  rcases diskRound_cases c int13 s with ⟨e, hne, he⟩ | ⟨sector, hread, hkeeps, hround⟩
  · rw [he] at h
    exact absurd (Prod.mk.inj (Option.some.inj h)).2 hne
  · rw [hreq] at hread h
    rw [hround, hvars, Geometry.updateChs_vars hv hp] at h
    refine ⟨sector, hread, hkeeps, ?_⟩
    by_cases hlast : p + 1 < geo.perCylin
    · rw [if_pos hlast] at h
      exact Or.inl ⟨hlast, hrest h⟩
    · have hend : p + 1 = geo.perCylin := by omega
      rw [if_neg hlast] at h
      by_cases hzero : k - 1 = 0
      · rw [if_pos hzero] at h
        exact Or.inr (Or.inl ⟨hend, hzero, (Prod.mk.inj (Option.some.inj h)).1.symm⟩)
      · rw [if_neg hzero] at h
        by_cases hneg : (k - 1).slt 0
        · rw [if_pos hneg] at h
          obtain ⟨rest, -, hr⟩ := hrest h
          exact Or.inr (Or.inr ⟨hend, hneg, rest, hr⟩)
        · rw [if_neg hneg] at h
          cases h

/-- A loop that starts a cylinder with a negative number of sectors left is not left through
`_disk_loop_exit`: no cylinder has enough sectors to get to 0. -/
theorem diskLoop_of_negative (hv : geo.Valid) (hp : p < geo.perCylin)
    (hvars : s.vars = geo.vars cyl p k t) (hk : 32768 ≤ k.toNat + p) :
    diskLoop c int13 fuel s ≠ some (reqs, .diskLoopExit) := by
  have hcyl := hv.perCylin_le
  induction fuel generalizing cyl p k t reqs s with
  | zero => exact fun h => by cases h
  | succ fuel ih =>
    intro h
    have hpred : (k - 1).toNat = k.toNat - 1 := by
      have := k.isLt
      bv_omega
    obtain ⟨sector, -, -, ⟨hlt, rest, -, hr⟩ | ⟨hend, hzero, -⟩ | ⟨hend, hneg, rest, hr⟩⟩ :=
      diskLoop_cases hv hp hvars h
    · exact ih hlt rfl (by omega) hr
    · have hzero' : (k - 1).toNat = 0 := by rw [hzero]; rfl
      omega
    · rw [slt_zero_iff] at hneg
      exact ih (by omega) rfl (by omega) hr

/-- A loop that is left through `_disk_loop_exit` has read the rest of its cylinder. -/
theorem length_of_diskLoop (hv : geo.Valid) (hp : p < geo.perCylin)
    (hvars : s.vars = geo.vars cyl p k t)
    (h : diskLoop c int13 fuel s = some (reqs, .diskLoopExit)) :
    reqs.length + p = geo.perCylin := by
  induction fuel generalizing p k t reqs s with
  | zero => cases h
  | succ fuel ih =>
    obtain ⟨sector, -, -, ⟨hlt, rest, rfl, hr⟩ | ⟨hend, -, rfl⟩ | ⟨hend, hneg, rest, hr⟩⟩ :=
      diskLoop_cases hv hp hvars h
    · rw [List.length_cons, Nat.add_right_comm]
      exact ih hlt rfl hr
    · rw [List.length_singleton]
      omega
    · rw [slt_zero_iff] at hneg
      exact absurd hr (diskLoop_of_negative hv (by omega) rfl (by omega))

theorem loadKernel_vars (c : Setup) (hv : geo.Valid) (kern32Secs : ℕ) :
    (c.loadKernel geo kern32Secs).vars = geo.vars 0 5 (BitVec.ofNat 16 kern32Secs) 5 := by
  have hsecs := hv.secs_ge
  simp only [Setup.loadKernel, Geometry.vars, Nat.div_eq_of_lt (show 5 < geo.secs.toNat by omega),
    Nat.mod_eq_of_lt (show 5 < geo.secs.toNat by omega)]
  rfl

theorem atRound_zero (hv : geo.Valid) (n : ℕ) : AtRound c disk geo n 0 (c.loadKernel geo n) :=
  ⟨⟨5, loadKernel_vars c hv n⟩, rfl, fun _ => rfl, fun h => absurd h (by decide),
    fun h => absurd h (by decide)⟩

/-- Only kernels that end with the first cylinder are loaded. -/
theorem LoadsKernel.perCylin {n : ℕ} (hv : geo.Valid) (h : LoadsKernel c int13 geo n) :
    n + 5 = geo.perCylin := by
  obtain ⟨fuel, hloop⟩ := h
  have hcyl := hv.le_perCylin
  have hlen := length_of_diskLoop hv (by omega) (loadKernel_vars c hv n) hloop
  rwa [List.length_map, List.length_range] at hlen

end

/-! ## A BIOS that does no more than it has to -/

open Classical in
/-- A BIOS that reads nothing once a byte it relies on has changed, and nothing over its stack. -/
noncomputable def Setup.carefulBios (c : Setup) (own : ℕ → Prop) (disk : Request → Sector) (m : Mem)
    (es : ℕ) (req : Request) : Option Sector :=
  if c.Agrees own m ∧ ∀ j < 512, ¬c.InStack (c.buffer es j) then some (disk req) else none

theorem carefulBios_serves (c : Setup) (own : ℕ → Prop) (disk : Request → Sector) (cx : BitVec 16)
    (geo : Geometry) : c.Serves own disk cx geo (c.carefulBios own disk) :=
  fun _ _ hagrees hstack _ _ => if_pos ⟨hagrees, hstack⟩

theorem of_carefulBios {es : ℕ} {req : Request} (h : c.carefulBios own disk m es req = some sector) :
    c.Agrees own m ∧ (∀ j < 512, ¬c.InStack (c.buffer es j)) ∧ sector = disk req := by
  rw [Setup.carefulBios] at h
  split_ifs at h with hok
  exact ⟨hok.1, hok.2, (Option.some.inj h).symm⟩

/-- Round `i` of a loop that loads the kernel with that BIOS. -/
structure Loading (c : Setup) (own : ℕ → Prop) (disk : Request → Sector) (geo : Geometry) (n i : ℕ)
    (s : Loader) : Prop where
  atRound : AtRound c disk geo n i s
  exits : ∃ fuel reqs, diskLoop c (c.carefulBios own disk) fuel s = some (reqs, .diskLoopExit)

section

variable {geo : Geometry} {n : ℕ} (hv : geo.Valid) (hn : n + 5 = geo.perCylin)

include hv hn

/-- The round finds what the BIOS relies on and spares its stack and the loader, and leads to the next
one. -/
theorem Loading.round (h : Loading c own disk geo n i s) (hi : i < n) :
    c.Agrees own s.mem ∧ (∀ j < 512, ¬c.InStack (c.buffer s.es j)) ∧ s.Keeps c ∧
      (i + 1 < n → i ≤ 62 →
        ∃ v, Loading c own disk geo n (i + 1) (s.next c (disk (geo.request 0 (5 + i))) v)) := by
  obtain ⟨t, hvars⟩ := h.atRound.vars
  obtain ⟨fuel, reqs, hloop⟩ := h.exits
  cases fuel with
  | zero => cases hloop
  | succ fuel =>
    obtain ⟨sector, hread, hkeeps, hcases⟩ := diskLoop_cases hv (by omega) hvars hloop
    obtain ⟨hagrees, hstack, rfl⟩ := of_carefulBios hread
    refine ⟨hagrees, hstack, hkeeps, fun hlt hle => ?_⟩
    rcases hcases with ⟨-, rest, -, hr⟩ | ⟨hend, -⟩ | ⟨hend, -⟩
    · exact ⟨_, h.atRound.next hi hle rfl t, fuel, rest, hr⟩
    · omega
    · omega

theorem exists_loading (hload : LoadsKernel c (c.carefulBios own disk) geo n) (hi : i < n)
    (hle : i ≤ 63) : ∃ s, Loading c own disk geo n i s := by
  induction i with
  | zero =>
    obtain ⟨fuel, hloop⟩ := hload
    exact ⟨_, atRound_zero hv n, fuel, _, hloop⟩
  | succ i ih =>
    obtain ⟨s, hs⟩ := ih (by omega) (by omega)
    obtain ⟨-, -, -, hnext⟩ := hs.round hv hn (by omega)
    obtain ⟨v, hs'⟩ := hnext hi (by omega)
    exact ⟨_, hs'⟩

/-- The 64th round would copy over the loader. -/
theorem le_of_loads (hload : LoadsKernel c (c.carefulBios own disk) geo n) : n ≤ 63 := by
  by_contra hlt
  obtain ⟨s, hs⟩ := exists_loading hv hn hload (show 63 < n by omega) le_rfl
  obtain ⟨-, -, hkeeps, -⟩ := hs.round hv hn (by omega)
  have hle := (hs.atRound.keeps_iff le_rfl).1 hkeeps
  omega

theorem harmless_of_loads (hown : Owns own) (hload : LoadsKernel c (c.carefulBios own disk) geo n) :
    c.Harmless own disk geo n := by
  have hle := le_of_loads hv hn hload
  refine ⟨hle, fun i hpos hi => ?_, fun hlast => ?_⟩
  · obtain ⟨s, hs⟩ := exists_loading hv hn hload (show i < n by omega) (by omega)
    obtain ⟨hagrees, -, -, hnext⟩ := hs.round hv hn (by omega)
    obtain ⟨v, hs'⟩ := hnext hi (by omega)
    rw [kernelSector_eq (by omega)]
    exact (hs.atRound.agrees_iff hown hagrees hpos (by omega)).1 (hs'.round hv hn hi).1
  · obtain ⟨s, hs⟩ := exists_loading hv hn hload (show 62 < n by omega) (by decide)
    obtain ⟨-, hstack, hkeeps, -⟩ := hs.round hv hn (by omega)
    rw [kernelSector_eq (by omega), ← hs.atRound.es_last rfl]
    exact fun j hj => ⟨hstack j hj, (hkeeps j hj).1⟩

/-! ## Any BIOS -/

section

variable (hown : Owns own) (hharmless : c.Harmless own disk geo n) {cx : BitVec 16}
  (hserves : c.Serves own disk cx geo int13)

include hown hharmless hserves

/-- A round reads its sector and leads to the next one, or out of the loop behind the last one. -/
theorem AtRound.round (hs : AtRound c disk geo n i s) (hagrees : c.Agrees own s.mem) (hi : i < n) :
    s.vars.request = geo.request 0 (5 + i) ∧ (i + 1 = n → diskRound c int13 s = .error .diskLoopExit) ∧
      (i + 1 < n → ∃ s', diskRound c int13 s = .ok s' ∧ AtRound c disk geo n (i + 1) s' ∧
        c.Agrees own s'.mem) := by
  have hle := hharmless.le
  obtain ⟨t, hvars⟩ := hs.vars
  have hreq : s.vars.request = geo.request 0 (5 + i) := by rw [hvars, Geometry.request_vars]
  have hspare : c.Aside s.es := by
    by_cases hi : i ≤ 61
    · exact hs.aside hi
    · have hsector : kernelSector disk geo 61 = disk (geo.request 0 66) := kernelSector_eq (by omega)
      rw [hs.es_last (by omega), ← hsector]
      exact hharmless.aside (by omega)
  have hvector : load32 s.mem 0x4C = load32 c.mem 0x4C :=
    load32_congr fun x hlo hhi => hagrees x (hown.vector x hlo hhi)
  have hread := hserves s.mem s.es hagrees (fun j hj => (hspare j hj).1) (5 + i)
    (lt_of_lt_of_le (show 5 + i < geo.perCylin by omega) (Nat.le_mul_of_pos_left _ (Nat.succ_pos _)))
  rw [requestFor_of_lt (by omega)] at hread
  have hround := diskRound_of_read hreq hvector hread
    ((hs.keeps_iff (by omega)).2 ⟨by omega, fun j hj => (hspare j hj).2⟩)
  rw [hvars, Geometry.updateChs_vars hv (by omega)] at hround
  refine ⟨hreq, fun hlast => ?_, fun hlt => ?_⟩
  · have hone : BitVec.ofNat 16 (n - i) - 1 = 0 := by
      rw [show n - i = 1 by omega]
      rfl
    rw [hround, if_neg (by omega), if_pos hone]
    rfl
  · rw [if_pos (by omega)] at hround
    refine ⟨_, hround, hs.next hi (by omega) rfl t, ?_⟩
    rcases i.eq_zero_or_pos with h0 | hpos
    · exact hs.agrees_first hown hagrees h0
    · have hcarries := hharmless.carries i hpos hlt
      rw [kernelSector_eq (by omega)] at hcarries
      exact (hs.agrees_iff hown hagrees hpos (by omega)).2 hcarries

/-- The rest of the kernel is read. -/
theorem diskLoop_of_rest (k : ℕ) (hk : i + k + 1 = n) (hs : AtRound c disk geo n i s)
    (hagrees : c.Agrees own s.mem) : diskLoop c int13 (k + 1) s =
      some ((List.range (k + 1)).map fun j => geo.request 0 (5 + i + j), .diskLoopExit) := by
  obtain ⟨hreq, hlast, hnext⟩ := hs.round hv hn hown hharmless hserves hagrees (by omega)
  induction k generalizing i s with
  | zero =>
    rw [diskLoop, hlast hk, hreq]
    rfl
  | succ k ih =>
    obtain ⟨s', hround, hs', hagrees'⟩ := hnext (by omega)
    obtain ⟨hreq', hlast', hnext'⟩ := hs'.round hv hn hown hharmless hserves hagrees' (by omega)
    have hrest := ih (by omega) hs' hagrees' hreq' hlast' hnext'
    have hshift : (List.range (k + 1)).map (fun j => geo.request 0 (5 + (i + 1) + j)) =
        (List.range (k + 1)).map ((fun j => geo.request 0 (5 + i + j)) ∘ Nat.succ) :=
      List.map_congr_left fun j _ => congrArg (geo.request 0) (by omega)
    rw [diskLoop, hround, hreq]
    simp only [hrest, hshift, Option.map_some, List.range_succ_eq_map (n := k + 1), List.map_cons,
      List.map_map]
    rfl

theorem loadsKernel_of_harmless (hpos : 1 ≤ n) : LoadsKernel c int13 geo n := by
  have hrest := diskLoop_of_rest hv hn hown hharmless hserves (n - 1) (by omega) (atRound_zero hv n)
    fun _ _ => rfl
  have hlen : n - 1 + 1 = n := by omega
  rw [hlen] at hrest
  refine ⟨n, hrest.trans ?_⟩
  congr 2
  refine List.map_congr_left fun i hi => (requestFor_of_lt ?_).symm
  rw [List.mem_range] at hi
  omega

end

end

/-- With every BIOS that reads the disk as long as what it relies on is unchanged, the loop loads just
the kernels that end with the first cylinder and do no harm to the BIOS, the stack and the loader. -/
theorem disk_loop_iff (c : Setup) (own : ℕ → Prop) (hown : Owns own) (disk : Request → Sector)
    (cx : BitVec 16) (dh : BitVec 8) (geo : Geometry) (kern32Secs : ℕ)
    (h : diskGetInfos cx dh = some geo) :
    (∀ int13, c.Serves own disk cx geo int13 → LoadsKernel c int13 geo kern32Secs) ↔
      kern32Secs + 5 = geo.secs.toNat * geo.heads.toNat ∧ c.Harmless own disk geo kern32Secs := by
  have hv := valid_of_infos h
  constructor
  · intro hloads
    have hload := hloads _ (carefulBios_serves c own disk cx geo)
    exact ⟨hload.perCylin hv, harmless_of_loads hv (hload.perCylin hv) hown hload⟩
  · rintro ⟨hn, hharmless⟩ int13 hserves
    have hcyl := hv.le_perCylin
    have hpos : 1 ≤ kern32Secs := by
      rw [Geometry.perCylin] at hcyl
      omega
    exact loadsKernel_of_harmless hv hn hown hharmless hserves hpos

/-- A machine without extended disk functions, whose memory repeats every 512 bytes. -/
def floppySetup : Setup := ⟨true, false, true, ⟨fun a => BitVec.ofNat 8 (a % 512)⟩⟩

/-- The vectors and the data of the BIOS. -/
def lowMemory (a : ℕ) : Prop := 4 ≤ a ∧ a < 0x500

theorem owns_lowMemory : Owns lowMemory := by
  refine ⟨fun a hlo hhi => ⟨by omega, by omega⟩, fun a h => h.1, fun a h => Or.inl ?_, fun a h => ?_⟩
  all_goals
    have hlt := h.2
    omega

/-- A floppy disk of 80 cylinders, 2 heads and 18 sectors per track, and a kernel of 31 sectors that
are all like the first 512 bytes of the memory. -/
theorem disk_loop_iff_floppy : LoadsKernel floppySetup
    (floppySetup.carefulBios lowMemory fun _ j => floppySetup.mem.byte j) ⟨18, 2, 317⟩ 31 := by
  refine (disk_loop_iff floppySetup lowMemory owns_lowMemory (fun _ j => floppySetup.mem.byte j) 0x4F12
    1 ⟨18, 2, 317⟩ 31 (by decide)).2 ⟨by decide, by decide, fun i _ _ j _ => ⟨fun _ => rfl, fun _ => ?_⟩,
    fun h => absurd h (by decide)⟩ _ (carefulBios_serves _ _ _ _ _)
  exact congrArg (BitVec.ofNat 8) (Nat.mul_add_mod 512 i j).symm

/-- A kernel of one sector fits on that disk, and the loop does not get past its first cylinder. -/
theorem disk_loop_fails :
    ¬ ∀ (c : Setup) (int13 : Mem → ℕ → Request → Option Sector) (disk : Request → Sector)
      (cx : BitVec 16) (dh : BitVec 8) (geo : Geometry) (kern32Secs : ℕ),
      diskGetInfos cx dh = some geo →
      (∀ m es, ∀ lba < cylinders cx * (geo.secs.toNat * geo.heads.toNat),
        int13 m es (requestFor geo.secs.toNat geo.heads.toNat lba) =
          some (disk (requestFor geo.secs.toNat geo.heads.toNat lba))) →
      1 ≤ kern32Secs → 5 + kern32Secs ≤ cylinders cx * (geo.secs.toNat * geo.heads.toNat) →
      LoadsKernel c int13 geo kern32Secs := by
  intro h
  have hv : Geometry.Valid ⟨18, 2, 317⟩ := valid_of_infos (show diskGetInfos 0x4F12 1 = _ by decide)
  have hload := h floppySetup (fun _ _ req => some ((fun _ _ => 0 : Request → Sector) req))
    (fun _ _ => 0) 0x4F12 1 ⟨18, 2, 317⟩ 1 (by decide) (fun _ _ _ _ => rfl) (by decide) (by decide)
  exact absurd (hload.perCylin hv) (by decide)

end YohdaOS.Boot
