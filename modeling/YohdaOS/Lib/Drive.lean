import YohdaOS.Lib.Memory
import YohdaOS.Lib.Runs

/-!
# A drive

A drive keeps sectors of 512 bytes and moves them to and from a memory.  A transfer that fails may
leave anything in its target, and nothing else changes.  What was written to a sector can be read
back until something else is written there.
-/

namespace Drive

open ByteMem

/-- The bytes of a sector. -/
def SECTOR : ℕ := 512

/-- The memory `dst` with the `n` bytes of `src` from `a` on at `b`. -/
def copy (src : Mem) (a : ℕ) (dst : Mem) (b n : ℕ) : Mem :=
  ⟨fun x => if b ≤ x ∧ x < b + n then src.byte (a + (x - b)) else dst.byte x⟩

variable {src dst m m' : Mem} {a b n x : ℕ}

theorem byte_copy {j : ℕ} (hj : j < n) : (copy src a dst b n).byte (b + j) = src.byte (a + j) := by
  have hsub : a + (b + j - b) = a + j := by omega
  have hin : (copy src a dst b n).byte (b + j) = src.byte (a + (b + j - b)) := if_pos (by omega)
  rw [hin, hsub]

theorem byte_copy_of_not (h : ¬(b ≤ x ∧ x < b + n)) : (copy src a dst b n).byte x = dst.byte x :=
  if_neg h

theorem frame_copy (src : Mem) (a : ℕ) (dst : Mem) (b n : ℕ) :
    Frame b (b + n) dst (copy src a dst b n) :=
  fun _ hx => byte_copy_of_not (by omega)

inductive Dir where
  | read
  | write
deriving DecidableEq

/-- A transfer of `n` sectors from `lba` on to or from the buffer `buf`, and whether it succeeded; a
request that is not carried out; a store of the program. -/
inductive Event where
  | transfer (d : Dir) (lba n buf : ℕ) (ok : Bool)
  | refuse
  | store (a v : ℕ)

structure State where
  mem : Mem
  disk : Mem

inductive Step (s : State) : Event → State → Prop
  | read (lba n buf : ℕ) :
      Step s (.transfer .read lba n buf true)
        { s with mem := copy s.disk (SECTOR * lba) s.mem buf (SECTOR * n) }
  | write (lba n buf : ℕ) :
      Step s (.transfer .write lba n buf true)
        { s with disk := copy s.mem buf s.disk (SECTOR * lba) (SECTOR * n) }
  | readFailed (lba n buf : ℕ) (m : Mem) (hm : Frame buf (buf + SECTOR * n) s.mem m) :
      Step s (.transfer .read lba n buf false) { s with mem := m }
  | writeFailed (lba n buf : ℕ) (d : Mem)
      (hd : Frame (SECTOR * lba) (SECTOR * lba + SECTOR * n) s.disk d) :
      Step s (.transfer .write lba n buf false) { s with disk := d }
  | refuse : Step s .refuse s
  | store (a v : ℕ) : Step s (.store a v) { s with mem := store8 s.mem a v }

/-- The event writes to none of the `n` sectors from `lba` on. -/
def Event.Spares (lba n : ℕ) : Event → Prop
  | .transfer .write lba' n' _ _ => ¬Meets lba n lba' n'
  | _ => True

variable {s s' t : State} {e : Event} {tr : List Event} {lba lba' buf' : ℕ} {n' : ℕ}

/-- A byte of a sector that is spared. -/
theorem Step.disk (h : Step s e s') (he : e.Spares lba n) (hlo : SECTOR * lba ≤ x)
    (hhi : x < SECTOR * (lba + n)) : s'.disk.byte x = s.disk.byte x := by
  have hout {lba' n' : ℕ} (hmeet : ¬Meets lba n lba' n') :
      x < SECTOR * lba' ∨ SECTOR * lba' + SECTOR * n' ≤ x := by
    simp only [Meets, SECTOR] at *
    omega
  cases h with
  | read => rfl
  | write lba' n' buf => exact frame_copy _ _ _ _ _ x (hout he)
  | readFailed => rfl
  | writeFailed lba' n' buf d hd => exact hd x (hout he)
  | refuse => rfl
  | store => rfl

theorem Trace.disk (h : Runs.Trace Step s tr t) (htr : ∀ e ∈ tr, e.Spares lba n)
    (hlo : SECTOR * lba ≤ x) (hhi : x < SECTOR * (lba + n)) : t.disk.byte x = s.disk.byte x := by
  have hstep (u : State) (e : Event) (v : State) (hu : u.disk.byte x = s.disk.byte x)
      (he : e.Spares lba n) (huv : Step u e v) : v.disk.byte x = s.disk.byte x :=
    (huv.disk he hlo hhi).trans hu
  exact @Runs.invariant_of_trace _ (fun u => u.disk.byte x = s.disk.byte x) _ _ _ _ _ _ h rfl htr hstep

/-- What was written is read back, as long as nothing else was written to the sectors. -/
theorem read_back {s₁ s₂ s₃ : State} (hwrite : Step s (.transfer .write lba n b true) s₁)
    (hrun : Runs.Trace Step s₁ tr s₂) (htr : ∀ e ∈ tr, e.Spares lba n)
    (hread : Step s₂ (.transfer .read lba n buf' true) s₃) {j : ℕ} (hj : j < SECTOR * n) :
    s₃.mem.byte (buf' + j) = s.mem.byte (b + j) := by
  have hmul : SECTOR * (lba + n) = SECTOR * lba + SECTOR * n := Nat.mul_add _ _ _
  cases hread with
  | read =>
    cases hwrite with
    | write =>
      rw [byte_copy hj, Trace.disk hrun htr (Nat.le_add_right _ _) (by omega)]
      exact byte_copy hj

end Drive
