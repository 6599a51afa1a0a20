import YohdaOS.Irq.Arguments

/-!
# Where a stub returns

Every stub returns to the interrupted instruction with its flags and its stack pointer.  The stubs of
the exceptions with an error code take two words from below the registers where they have pushed one,
so that each register gets the value of the next one.
-/

namespace YohdaOS.P32.Isr

open ByteMem Switch Relation

/-- The stubs of the file with the vectors that they are for. -/
def stubs : List (ℕ × Stub) :=
  [(0, isrDivisionError), (1, isrDebug), (2, isrNonMaskableInterrupt), (3, isrBreakpoint),
    (4, isrOverflow), (5, isrBoundRangeExceeded), (6, isrInvalidOpcode), (7, isrDeviceNotAvailable),
    (8, isrDoubleFault), (10, isrInvalidTss), (11, isrSegmentNotPresent), (12, isrStackSegmentFault),
    (13, isrGeneralProtectionFault), (14, isrPageFault), (16, isrX87FloatingPointException),
    (17, isrAlignmentCheck), (18, isrMachineCheck), (19, isrSimdFloatingPointException),
    (20, isrVirtualizationException), (32, isrSystemTimerInterrupt), (33, isrPs2KeyboardInterrupt),
    (128, isrSyscall)]

/-- The vectors whose stubs have one word too many to take. -/
def shiftedVectors : List ℕ := [8, 10, 11, 12, 17]

/-- The bytes of its arguments that a handler may write: the handlers of the two faults do not write
the structure that they get. -/
def argBytes (v : ℕ) : ℕ := if v = 13 ∨ v = 14 then 0 else 4

/-- Each register has the value of the next one that `popad` takes, and the last one the error code. -/
def shifted (s : Machine) (code : Word) : Reg → Word
  | .edi => s.reg .esi
  | .esi => s.reg .ebp
  | .ebp => s.esp - 16
  | .ebx => s.reg .edx
  | .edx => s.reg .ecx
  | .ecx => s.reg .eax
  | .eax => code
  | .esp => s.esp

/-- The error code that the exception of a vector has. -/
def errOf (v : ℕ) (code : Word) : Option Word := Event.err ⟨.exception, v, code⟩

variable {K : Kernel} {s₀ s s' t u : Machine} {ws : List Word} {env : Machine → Machine → Prop}
  {h : Handler} {irq code : Word} {f : Reg → Word} {g : Gate} {v : ℕ} {p : Stub}

theorem Holds.popSeg {r : Seg} (hs : Holds K s₀ t ((s₀.seg r).setWidth 32 :: ws) f)
    (hdo : Does K.area env h (.popSeg r) t u) : Holds K s₀ u ws f := by
  obtain ⟨next, rfl, -⟩ := hdo.eq (by simp) (by simp)
  have hdrop : Stacked K.area s₀ (t.drop 4) ws :=
    hs.stacked.drops [(s₀.seg r).setWidth 32] rfl
  have hseg : Function.update t.seg r (t.top.setWidth 16) = t.seg := by
    rw [hs.stacked.top, BitVec.setWidth_setWidth_of_le _ (by decide), BitVec.setWidth_eq,
      ← hs.stacked.seg]
    exact Function.update_eq_self r t.seg
  refine ⟨hdrop.of_eq rfl rfl hseg, fun q hne => ?_⟩
  rw [← hs.reg q hne]
  exact Machine.drop_reg t 4 hne

/-- The saved registers and the error code without the first of them are saved registers again. -/
theorem saved_shifted (s : Machine) (code : Word) :
    Stacked.saved (regsBelow s 4) ++ [code] =
      s.reg .edi :: Stacked.saved (Function.update (shifted s code) .esp (s.reg .ebx)) := by
  have hesp : regsBelow s 4 .esp = s.esp - 16 := Function.update_self _ _ _
  have hreg (r : Reg) (hr : r ≠ .esp) : regsBelow s 4 r = s.reg r := Function.update_of_ne hr _ _
  simp [Stacked.saved, hesp, hreg, shifted]

section Stubs

variable (hsound : Sound K env) (hready : Ready K s₀)

include hsound hready

/-- The end of the stubs that have pushed two words for their handler, or should have. -/
theorem fault_after {us : List Word} {f' : Reg → Word} (hus : us.length = 2)
    (ht : Holds K s₀ t (us ++ (Stacked.saved f' ++ [s₀.eip, s₀.cs.setWidth 32, s₀.eflags])) f)
    (hr : Runs K.area env h [.addEsp 8, .popad, .sti, .iret] t s') :
    Kept K.area (s₀.withRegs f') s' := by
  obtain ⟨t, u, ht, hdo, hr⟩ := ht.next hsound hready hr
  obtain ⟨t, u, ht, hdo, hr⟩ := (ht.addEsp us (by rw [hus]; rfl) hdo).next hsound hready hr
  obtain ⟨t, u, ht, hdo, hr⟩ := (ht.popad hdo).next hsound hready hr
  obtain ⟨t, u, ht, hdo, hr⟩ := (ht.flags (by simp) hdo).next hsound hready hr
  cases hr
  exact ht.iret hdo

theorem plain_code (hcdecl : h.Cdecl K.area 4) (hs : Holds K s₀ s (delivered s₀ none) s₀.reg)
    (hr : Runs K.area env h (stubPlain irq).code s s') : Kept K.area s₀ s' := by
  obtain ⟨t, hbefore, hr⟩ := runs_append hr
  obtain ⟨f, ht⟩ := plain_before hsound hready hs hbefore
  obtain ⟨t, u, ht, hdo, hr⟩ := ht.next hsound hready hr
  obtain ⟨us, f', hus, hu⟩ := ht.call [irq]
    (0 :: (Stacked.saved (regsBelow s₀ 3) ++ delivered s₀ none)) hsound hready hcdecl hdo
  rw [List.append_cons] at hu
  have hkept := fault_after hsound hready (by rw [List.length_append, hus]; rfl) hu hr
  rwa [withRegs_regsBelow] at hkept

theorem err_before (hs : Holds K s₀ s ws s₀.reg)
    (hr : Runs K.area env h (stubErr irq).before s s') :
    ∃ f, Holds K s₀ s' (irq :: (Stacked.saved (regsBelow s₀ ws.length) ++ ws)) f := by
  obtain ⟨t, u, ht, hdo, hr⟩ := hs.next hsound hready hr
  obtain ⟨t, u, ht, hdo, hr⟩ := (ht.flags (by simp) hdo).next hsound hready hr
  obtain ⟨t, u, ht, hdo, hr⟩ := (ht.saves hdo).next hsound hready hr
  obtain ⟨t, u, ht, hdo, hr⟩ := (ht.movEbp hdo).next hsound hready hr
  obtain ⟨t, u, ht, hdo, hr⟩ := (ht.flags (by simp) hdo).next hsound hready hr
  cases hr
  exact ⟨_, ht.push hdo⟩

theorem err_code (hcdecl : h.Cdecl K.area 4)
    (hs : Holds K s₀ s (delivered s₀ (some code)) s₀.reg)
    (hr : Runs K.area env h (stubErr irq).code s s') :
    Kept K.area (s₀.withRegs (shifted s₀ code)) s' := by
  obtain ⟨t, hbefore, hr⟩ := runs_append hr
  obtain ⟨f, ht⟩ := err_before hsound hready hs hbefore
  obtain ⟨t, u, ht, hdo, hr⟩ := ht.next hsound hready hr
  obtain ⟨us, f', hus, hu⟩ := ht.call [irq]
    (Stacked.saved (regsBelow s₀ 4) ++ delivered s₀ (some code)) hsound hready hcdecl hdo
  have hwords : us ++ (Stacked.saved (regsBelow s₀ 4) ++ delivered s₀ (some code)) =
      (us ++ [s₀.reg .edi]) ++
        (Stacked.saved (Function.update (shifted s₀ code) .esp (s₀.reg .ebx)) ++
          [s₀.eip, s₀.cs.setWidth 32, s₀.eflags]) := by
    rw [delivered, Option.toList_some, ← List.append_assoc _ [code], saved_shifted]
    simp
  rw [hwords] at hu
  have hkept := fault_after hsound hready (by rw [List.length_append, hus]; rfl) hu hr
  rwa [Machine.withRegs, Function.update_idem] at hkept

theorem info_code (hcdecl : h.Cdecl K.area 0)
    (hs : Holds K s₀ s (delivered s₀ (some code)) s₀.reg)
    (hr : Runs K.area env h (stubInfo irq).code s s') : Kept K.area s₀ s' := by
  obtain ⟨t, hbefore, hr⟩ := runs_append hr
  obtain ⟨f, ht⟩ := info_before hsound hready hs hbefore
  obtain ⟨t, u, ht, hdo, hr⟩ := ht.next hsound hready hr
  obtain ⟨us, f', hus, hu⟩ := ht.call [] _ hsound hready hcdecl hdo
  obtain rfl := List.length_eq_zero_iff.1 hus
  obtain ⟨t, u, ht, hdo, hr⟩ := hu.next hsound hready hr
  obtain ⟨t, u, ht, hdo, hr⟩ := (ht.popSeg hdo).next hsound hready hr
  obtain ⟨t, u, ht, hdo, hr⟩ := (ht.popSeg hdo).next hsound hready hr
  obtain ⟨t, u, ht, hdo, hr⟩ := (ht.popSeg hdo).next hsound hready hr
  obtain ⟨t, u, ht, hdo, hr⟩ := (ht.popSeg hdo).next hsound hready hr
  obtain ⟨t, u, ht, hdo, hr⟩ := (ht.popad hdo).next hsound hready hr
  obtain ⟨t, u, ht, hdo, hr⟩ := (ht.addEsp [irq, code] rfl hdo).next hsound hready hr
  obtain ⟨t, u, ht, hdo, hr⟩ := (ht.flags (by simp) hdo).next hsound hready hr
  cases hr
  have hkept := ht.iret hdo
  rwa [withRegs_regsBelow] at hkept

end Stubs

/-- A handler that returns at once. -/
def returning : Handler := ⟨fun _ _ => False, fun _ => True⟩

end YohdaOS.P32.Isr
