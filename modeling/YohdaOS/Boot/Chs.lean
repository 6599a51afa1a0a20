import Mathlib.Tactic

/-!
# The sectors of a disk

The secondary boot loader counts through the sectors of the disk in the order cylinder, head, sector.
Each round counts the sector, the head and the cylinder on, and `kern32_secs` down; that counter is
looked at behind the last sector of a cylinder only.
-/

namespace YohdaOS.Boot

/-- What `_disk_get_infos` of fbl.asm stores. -/
structure Geometry where
  secs : BitVec 16
  heads : BitVec 16
  cylins : BitVec 16
deriving DecidableEq

/-- `_disk_get_infos` on the registers that `int 0x13`, function 8, leaves. -/
def diskGetInfos (cx : BitVec 16) (dh : BitVec 8) : Option Geometry :=
  let secs := cx &&& 0x3F
  let cylins := ((cx &&& 0xFFC0) >>> 6) + 1
  let heads := dh.setWidth 16 + 1
  if secs.slt 8 then none else some { secs, heads, cylins }

/-- The registers of a request to read a sector: CH, DH and CL. -/
structure Request where
  ch : BitVec 8
  dh : BitVec 8
  cl : BitVec 8
deriving DecidableEq

/-- The words of sbl.asm that the loop works on. -/
structure DiskVars where
  geo : Geometry
  startCylin : BitVec 16
  startHead : BitVec 16
  startSec : BitVec 16
  kern32Secs : BitVec 16
  totalReadSec : BitVec 16

/-- How the loop is left: through its two ways out, or because what runs next is no longer the code of
sbl.asm or of the BIOS. -/
inductive LoopEnd where
  | diskLoopExit
  | error
  | elsewhere
  | overwritten
deriving DecidableEq

namespace DiskVars

/-- The sector that was read is counted. -/
def count (v : DiskVars) : DiskVars :=
  { v with totalReadSec := v.totalReadSec + 1, kern32Secs := v.kern32Secs - 1 }

/-- `_disk_update_chs`, which goes on at `_disk_loop` or leaves the loop. -/
def updateChs (v : DiskVars) : Except LoopEnd DiskVars :=
  let v := { v with startSec := v.startSec + 1 }
  if v.startSec.sle v.geo.secs then .ok v
  else
    let v := { v with startSec := 1, startHead := v.startHead + 1 }
    if v.startHead.slt v.geo.heads then .ok v
    else
      let v := { v with startHead := 0, startCylin := v.startCylin + 1 }
      -- the comparison with `cylins` is followed by another one before any jump
      if v.kern32Secs = 0 then .error .diskLoopExit
      else if v.kern32Secs.slt 0 then .ok v
      else .error .error

/-- The request of a round. -/
def request (v : DiskVars) : Request :=
  ⟨v.startCylin.setWidth 8, v.startHead.setWidth 8, v.startSec.setWidth 8⟩

end DiskVars

/-- The cylinders of the disk that the BIOS reports with `cx`: the upper two bits of their number
are those of CL. -/
def cylinders (cx : BitVec 16) : ℕ := cx.toNat / 256 + 256 * (cx.toNat / 64 % 4) + 1

/-- The request for sector `lba` of a disk, counted from 0. -/
def requestFor (secs heads lba : ℕ) : Request :=
  let cylin := lba / (secs * heads)
  ⟨BitVec.ofNat 8 cylin, BitVec.ofNat 8 (lba / secs % heads),
    BitVec.ofNat 8 (lba % secs + 1 + cylin / 256 * 64)⟩

/-! ## Words -/

theorem slt_iff {x y : BitVec 16} (hx : x.toNat < 32768) (hy : y.toNat < 32768) :
    x.slt y = true ↔ x.toNat < y.toNat := by
  rw [BitVec.slt_iff_toInt_lt, BitVec.toInt_eq_toNat_of_lt (by omega),
    BitVec.toInt_eq_toNat_of_lt (by omega), Nat.cast_lt]

theorem sle_iff {x y : BitVec 16} (hx : x.toNat < 32768) (hy : y.toNat < 32768) :
    x.sle y = true ↔ x.toNat ≤ y.toNat := by
  rw [BitVec.sle_iff_toInt_le, BitVec.toInt_eq_toNat_of_lt (by omega),
    BitVec.toInt_eq_toNat_of_lt (by omega), Nat.cast_le]

theorem slt_zero_iff {x : BitVec 16} : x.slt 0 = true ↔ 32768 ≤ x.toNat := by
  rw [BitVec.slt_iff_toInt_lt, BitVec.toInt_eq_toNat_cond]
  have := x.isLt
  split_ifs <;> simp <;> omega

theorem ofNat_succ (n : ℕ) : BitVec.ofNat 16 n + 1 = BitVec.ofNat 16 (n + 1) := by
  rw [BitVec.ofNat_add]
  rfl

/-- The numbers fit their words. -/
structure Geometry.Valid (geo : Geometry) : Prop where
  secs_ge : 8 ≤ geo.secs.toNat
  secs_le : geo.secs.toNat ≤ 63
  heads_pos : 1 ≤ geo.heads.toNat
  heads_le : geo.heads.toNat ≤ 256

theorem valid_of_infos {cx : BitVec 16} {dh : BitVec 8} {geo : Geometry}
    (h : diskGetInfos cx dh = some geo) : geo.Valid := by
  unfold diskGetInfos at h
  have hand : (cx &&& 0x3F).toNat = cx.toNat % 64 := by
    rw [BitVec.toNat_and]
    exact Nat.and_two_pow_sub_one_eq_mod cx.toNat 6
  have hdh := dh.isLt
  by_cases hslt : (cx &&& 0x3F).slt 8
  · rw [if_pos hslt] at h
    cases h
  · rw [if_neg hslt] at h
    obtain rfl := Option.some.inj h
    rw [slt_iff (by omega) (by decide), not_lt] at hslt
    have hheads : (dh.setWidth 16 + 1).toNat = dh.toNat + 1 := by
      rw [BitVec.toNat_add, BitVec.toNat_setWidth]
      simp
      omega
    exact ⟨hslt, by simp only [hand]; omega, by simp only [hheads]; omega,
      by simp only [hheads]; omega⟩

/-! ## The next sector -/

namespace Geometry

variable {geo : Geometry} {p : ℕ}

/-- The variables before the request for sector `p` of cylinder `c`, with `k` sectors left. -/
def vars (geo : Geometry) (c : BitVec 16) (p : ℕ) (k t : BitVec 16) : DiskVars :=
  ⟨geo, c, BitVec.ofNat 16 (p / geo.secs.toNat), BitVec.ofNat 16 (p % geo.secs.toNat + 1), k, t⟩

/-- The request for sector `p` of cylinder `c`. -/
def request (geo : Geometry) (c : BitVec 16) (p : ℕ) : Request :=
  ⟨c.setWidth 8, BitVec.ofNat 8 (p / geo.secs.toNat), BitVec.ofNat 8 (p % geo.secs.toNat + 1)⟩

/-- The sectors of a cylinder. -/
def perCylin (geo : Geometry) : ℕ := geo.secs.toNat * geo.heads.toNat

theorem Valid.perCylin_le (hv : geo.Valid) : geo.perCylin ≤ 16128 :=
  Nat.mul_le_mul hv.secs_le hv.heads_le

theorem Valid.le_perCylin (hv : geo.Valid) : 8 ≤ geo.perCylin :=
  le_trans hv.secs_ge (Nat.le_mul_of_pos_right _ hv.heads_pos)

theorem next_sector {n : ℕ} (h : p % n + 1 < n) : (p + 1) / n = p / n ∧ (p + 1) % n = p % n + 1 := by
  have hp := Nat.div_add_mod p n
  constructor
  · rw [← hp, Nat.add_assoc, Nat.mul_add_div (by omega), Nat.div_eq_of_lt h, hp, Nat.add_zero]
  · rw [← hp, Nat.add_assoc, Nat.mul_add_mod, Nat.mod_eq_of_lt h, hp]

theorem next_track {n : ℕ} (hn : 0 < n) (h : p % n + 1 = n) :
    (p + 1) / n = p / n + 1 ∧ (p + 1) % n = 0 ∧ p + 1 = n * (p / n + 1) := by
  have hp := Nat.div_add_mod p n
  have hmul : p + 1 = n * (p / n + 1) := by
    rw [Nat.mul_succ]
    omega
  refine ⟨?_, ?_, hmul⟩
  · rw [hmul, Nat.mul_div_cancel_left _ hn]
  · rw [hmul, Nat.mul_mod_right]

theorem request_vars (c : BitVec 16) (p : ℕ) (k t : BitVec 16) :
    (geo.vars c p k t).request = geo.request c p := by
  have hbyte (n : ℕ) : (BitVec.ofNat 16 n).setWidth 8 = BitVec.ofNat 8 n :=
    BitVec.setWidth_ofNat_of_le (by decide) n
  simp only [DiskVars.request, vars, hbyte, request]

/-- The loop goes on to the next sector of the cylinder; behind the last one it depends on the sectors
that are left. -/
theorem updateChs_vars (hv : geo.Valid) (hp : p < geo.perCylin) (c k t : BitVec 16) :
    (geo.vars c p k t).count.updateChs =
      if p + 1 < geo.perCylin then .ok (geo.vars c (p + 1) (k - 1) (t + 1))
      else if k - 1 = 0 then .error .diskLoopExit
      else if (k - 1).slt 0 then .ok (geo.vars (c + 1) 0 (k - 1) (t + 1))
      else .error .error := by
  have hsecs := hv.secs_ge
  have hsecs' := hv.secs_le
  have hheads := hv.heads_le
  have hmod := Nat.mod_lt p (show 0 < geo.secs.toNat by omega)
  have hdiv : p / geo.secs.toNat < geo.heads.toNat := Nat.div_lt_of_lt_mul hp
  have hword {n : ℕ} (hn : n < 65536) : (BitVec.ofNat 16 n).toNat = n := by
    rw [BitVec.toNat_ofNat]
    exact Nat.mod_eq_of_lt hn
  have hsle : (BitVec.ofNat 16 (p % geo.secs.toNat + 1) + 1).sle geo.secs = true ↔
      p % geo.secs.toNat + 1 < geo.secs.toNat := by
    have hnum := hword (show p % geo.secs.toNat + 1 + 1 < 65536 by omega)
    rw [ofNat_succ, sle_iff (by omega) (by omega), hnum]
    rfl
  have hslt : (BitVec.ofNat 16 (p / geo.secs.toNat) + 1).slt geo.heads = true ↔
      p / geo.secs.toNat + 1 < geo.heads.toNat := by
    have hnum := hword (show p / geo.secs.toNat + 1 < 65536 by omega)
    rw [ofNat_succ, slt_iff (by omega) (by omega), hnum]
  have hjump : (geo.vars c p k t).count.updateChs =
      if p % geo.secs.toNat + 1 < geo.secs.toNat then
        .ok ⟨geo, c, BitVec.ofNat 16 (p / geo.secs.toNat),
          BitVec.ofNat 16 (p % geo.secs.toNat + 1) + 1, k - 1, t + 1⟩
      else if p / geo.secs.toNat + 1 < geo.heads.toNat then
        .ok ⟨geo, c, BitVec.ofNat 16 (p / geo.secs.toNat) + 1, 1, k - 1, t + 1⟩
      else if k - 1 = 0 then .error .diskLoopExit
      else if (k - 1).slt 0 then .ok ⟨geo, c + 1, 0, 1, k - 1, t + 1⟩
      else .error .error := by
    simp only [← hsle, ← hslt, DiskVars.updateChs, DiskVars.count, vars]
    rfl
  refine hjump.trans ?_
  have hfirst (k t : BitVec 16) : geo.vars (c + 1) 0 k t = ⟨geo, c + 1, 0, 1, k, t⟩ := by
    simp only [vars, Nat.zero_div, Nat.zero_mod]
    rfl
  simp only [hfirst]
  by_cases hsec : p % geo.secs.toNat + 1 < geo.secs.toNat
  · obtain ⟨hd, hm⟩ := next_sector hsec
    have hlt : p + 1 < geo.perCylin := by
      have hq := Nat.div_add_mod (p + 1) geo.secs.toNat
      have hle := Nat.mul_le_mul_left geo.secs.toNat (Nat.succ_le_of_lt hdiv)
      rw [Nat.mul_succ] at hle
      rw [hd, hm] at hq
      exact lt_of_lt_of_le (by omega) hle
    rw [if_pos hsec, if_pos hlt, vars, hd, hm, ofNat_succ]
  · obtain ⟨hd, hm, hmul⟩ := next_track (p := p) (n := geo.secs.toNat) (by omega) (by omega)
    have hiff : p + 1 < geo.perCylin ↔ p / geo.secs.toNat + 1 < geo.heads.toNat := by
      rw [hmul, perCylin]
      exact Nat.mul_lt_mul_left (by omega)
    rw [if_neg hsec]
    by_cases hhead : p / geo.secs.toNat + 1 < geo.heads.toNat
    · rw [if_pos hhead, if_pos (hiff.2 hhead), vars, hd, hm, ofNat_succ]
      rfl
    · rw [if_neg hhead, if_neg (fun h => hhead (hiff.1 h))]

end Geometry

theorem requestFor_of_lt {geo : Geometry} {lba : ℕ} (h : lba < geo.perCylin) :
    requestFor geo.secs.toNat geo.heads.toNat lba = geo.request 0 lba := by
  have hcyl : lba / (geo.secs.toNat * geo.heads.toNat) = 0 := Nat.div_eq_of_lt h
  have hhead : lba / geo.secs.toNat % geo.heads.toNat = lba / geo.secs.toNat :=
    Nat.mod_eq_of_lt (Nat.div_lt_of_lt_mul h)
  simp only [requestFor, Geometry.request, hcyl, hhead, Nat.zero_div, Nat.zero_mul, Nat.add_zero]
  rfl

end YohdaOS.Boot
