import Mathlib.Tactic

/-!
# pic.c

The mask registers of the two interrupt controllers are read as one word of 16 bits, line `k` at bit
`k`, and written as two bytes.
-/

namespace YohdaOS.Irq

def PRI_PIC_DATA : BitVec 16 := 0x21

def SEC_PIC_DATA : BitVec 16 := 0xA1

/-- The mask registers of the first and of the second controller. -/
structure Pic where
  pri : BitVec 8
  sec : BitVec 8
deriving DecidableEq, Repr

/-- A call of `pic_set_mask`. -/
structure MaskCall where
  mask : BitVec 16
  flag : BitVec 8
deriving DecidableEq, Repr

namespace Pic

def outb (pic : Pic) (addr : BitVec 16) (val : BitVec 8) : Pic :=
  if addr = PRI_PIC_DATA then { pic with pri := val }
  else if addr = SEC_PIC_DATA then { pic with sec := val }
  else pic

def inb (pic : Pic) (addr : BitVec 16) : BitVec 8 :=
  if addr = PRI_PIC_DATA then pic.pri
  else if addr = SEC_PIC_DATA then pic.sec
  else 0

/-- `pic_get_imr` -/
def picGetImr (pic : Pic) : BitVec 16 :=
  ((pic.inb PRI_PIC_DATA).setWidth 32 ||| (pic.inb SEC_PIC_DATA).setWidth 32 <<< 8).setWidth 16

/-- `pic_set_mask`: the shift is of an `int`, and `outb` writes its low byte. -/
def picSetMask (pic : Pic) (_mask : BitVec 16) (flag : BitVec 8) : Pic :=
  let mask := pic.picGetImr
  let mask := if flag ≠ 0 then mask ||| _mask else mask &&& ~~~_mask
  let pic := pic.outb PRI_PIC_DATA (mask.setWidth 8)
  pic.outb SEC_PIC_DATA ((mask.setWidth 32 <<< 8 ||| 0xFF).setWidth 8)

def step (pic : Pic) (c : MaskCall) : Pic := pic.picSetMask c.mask c.flag

def run (pic : Pic) (calls : List MaskCall) : Pic := calls.foldl step pic

/-- Line `k` is masked in the registers. -/
def line (pic : Pic) (k : ℕ) : Bool := if k < 8 then pic.pri.getLsbD k else pic.sec.getLsbD (k - 8)

/-- Line `k` is to be masked: the last call that names it says so, or none does and it was masked at
first. -/
def asked (pic : Pic) (calls : List MaskCall) (k : ℕ) : Bool :=
  match calls.reverse.find? fun c => c.mask.getLsbD k with
  | some c => decide (c.flag ≠ 0)
  | none => pic.line k

variable {pic : Pic} {k : ℕ}

theorem run_concat (pic : Pic) (calls : List MaskCall) (c : MaskCall) :
    pic.run (calls ++ [c]) = (pic.run calls).step c := List.foldl_concat ..

theorem asked_concat (pic : Pic) (calls : List MaskCall) (c : MaskCall) (k : ℕ) :
    pic.asked (calls ++ [c]) k =
      if c.mask.getLsbD k then decide (c.flag ≠ 0) else pic.asked calls k := by
  rw [asked, List.reverse_concat, List.find?_cons]
  cases c.mask.getLsbD k with
  | true => rfl
  | false => rfl

theorem picGetImr_line (pic : Pic) (hk : k < 16) : pic.picGetImr.getLsbD k = pic.line k := by
  have hpri : pic.inb PRI_PIC_DATA = pic.pri := rfl
  have hsec : pic.inb SEC_PIC_DATA = pic.sec := rfl
  rw [picGetImr, hpri, hsec, line]
  by_cases hlow : k < 8
  · simp [hk, hlow]
  · have hhigh : pic.pri.getLsbD k = false := BitVec.getLsbD_of_ge _ _ (by omega)
    simp [hk, hlow, hhigh]

/-- The byte for the second controller: the shift has left no bit of the mask in it. -/
theorem low_byte_shiftLeft (mask : BitVec 32) : (mask <<< 8 ||| 0xFF).setWidth 8 = 0xFF#8 := by
  ext i hi
  interval_cases i <;> simp

/-- A call masks each line of the second controller. -/
theorem step_sec (pic : Pic) (c : MaskCall) : (pic.step c).sec = 0xFF := low_byte_shiftLeft _

/-- A call masks or unmasks the lines of the first controller that it names. -/
theorem step_line (pic : Pic) (c : MaskCall) (hk : k < 8) :
    (pic.step c).line k = if c.mask.getLsbD k then decide (c.flag ≠ 0) else pic.line k := by
  have hpri : (pic.step c).pri =
      (if c.flag ≠ 0 then pic.picGetImr ||| c.mask else pic.picGetImr &&& ~~~c.mask).setWidth 8 :=
    rfl
  have hline := picGetImr_line pic (show k < 16 by omega)
  rw [line, if_pos hk, hpri, BitVec.getLsbD_setWidth]
  by_cases hflag : c.flag = 0
  · rw [if_neg (not_not.2 hflag), BitVec.getLsbD_and, BitVec.getLsbD_not, hline]
    cases c.mask.getLsbD k <;> simp [hk, hflag, show k < 16 by omega]
  · rw [if_pos hflag, BitVec.getLsbD_or, hline, decide_eq_true hflag]
    cases c.mask.getLsbD k <;> simp [hk]

/-- The lines of the first controller are masked as they are asked for. -/
theorem run_line (pic : Pic) (calls : List MaskCall) (hk : k < 8) :
    (pic.run calls).line k = pic.asked calls k := by
  induction calls using List.reverseRecOn with
  | nil => rfl
  | append_singleton calls c ih => rw [run_concat, step_line _ _ hk, asked_concat, ih]

/-- After a call the lines of the second controller are all masked. -/
theorem run_line_sec (pic : Pic) (calls : List MaskCall) (hne : calls ≠ []) (hlo : 8 ≤ k)
    (hhi : k < 16) : (pic.run calls).line k = true := by
  obtain rfl | ⟨calls, c, rfl⟩ := List.eq_nil_or_concat' calls
  · exact absurd rfl hne
  · rw [run_concat, line, if_neg (by omega), step_sec]
    interval_cases k <;> rfl

/-- The masks are as they are asked for exactly when there is no call, or the lines of the second
controller are all to be masked. -/
theorem pic_mask_iff (pic : Pic) (calls : List MaskCall) :
    (∀ k < 16, (pic.run calls).picGetImr.getLsbD k = pic.asked calls k) ↔
      calls = [] ∨ ∀ k, 8 ≤ k → k < 16 → pic.asked calls k = true := by
  constructor
  · intro h
    by_cases hne : calls = []
    · exact Or.inl hne
    · right
      intro k hlo hhi
      rw [← h k hhi, picGetImr_line _ hhi, run_line_sec pic calls hne hlo hhi]
  · intro h k hk
    rw [picGetImr_line _ hk]
    obtain hlow | hhigh := lt_or_ge k 8
    · exact run_line pic calls hlow
    · obtain rfl | hasked := h
      · rfl
      · by_cases hne : calls = []
        · rw [hne]
          rfl
        · rw [hasked k hhigh hk, run_line_sec pic calls hne hhigh hk]

/-- Line 0 is unmasked where no line was masked: the lines from 8 on are masked. -/
theorem pic_mask_fails : ¬∀ (pic : Pic) (calls : List MaskCall), ∀ k < 16,
    (pic.run calls).picGetImr.getLsbD k = pic.asked calls k := by
  intro hall
  exact absurd (hall ⟨0, 0⟩ [⟨1, 0⟩] 8 (by decide)) (by decide)

end Pic

end YohdaOS.Irq
