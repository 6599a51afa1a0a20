import YohdaOS.Lib.Runs
import YohdaOS.Sched.Core

/-!
# Switching contexts

archtecture/x86/p32/task.asm, on a machine with the registers and the memory it uses.  A context is a
stack and a word, its slot, that holds the stack pointer while the context is suspended:
`scheduler.context`, or the field `pc` of a process.
-/

namespace YohdaOS.P32.Switch

open ByteMem

abbrev Word := BitVec 32

/-- The offset of the field `pc` of `struct proc_ctrl_blk`. -/
def offsetPc : ℕ := 16

inductive Reg where
  | eax
  | ecx
  | edx
  | ebx
  | esp
  | ebp
  | esi
  | edi
deriving DecidableEq, Repr

/-- The registers and the memory; `eip` is the address of the next instruction. -/
structure Cpu where
  reg : Reg → Word
  eip : Word
  mem : Mem

def loadWord (m : Mem) (a : Word) : Word := BitVec.ofNat 32 (load32 m a.toNat)

def storeWord (m : Mem) (a v : Word) : Mem := store32 m a.toNat v.toNat

inductive Instr where
  /-- `mov dst, [base+disp]` -/
  | load (dst base : Reg) (disp : Word)
  /-- `mov [base], src` -/
  | store (base src : Reg)
  | mov (dst src : Reg)
  | push (src : Reg)
  | pop (dst : Reg)
  | call
  | ret

namespace Cpu

variable (s : Cpu)

def set (r : Reg) (v : Word) : Cpu := { s with reg := Function.update s.reg r v }

def pushWord (v : Word) : Cpu :=
  { s.set .esp (s.reg .esp - 4) with mem := storeWord s.mem (s.reg .esp - 4) v }

/-- `call` leaves the address behind it on the stack. -/
def exec (s : Cpu) : Instr → Cpu
  | .load dst base disp => s.set dst (loadWord s.mem (s.reg base + disp))
  | .store base src => { s with mem := storeWord s.mem (s.reg base) (s.reg src) }
  | .mov dst src => s.set dst (s.reg src)
  | .push src => s.pushWord (s.reg src)
  | .pop dst => (s.set .esp (s.reg .esp + 4)).set dst (loadWord s.mem (s.reg .esp))
  | .call => s.pushWord s.eip
  | .ret => { s.set .esp (s.reg .esp + 4) with eip := loadWord s.mem (s.reg .esp) }

end Cpu

/-- `context_switch` -/
def contextSwitch : List Instr :=
  [.load .eax .esp 4, .load .ecx .esp 8,
    .push .edi, .push .esi, .push .ebx, .push .ebp,
    .store .eax .esp, .mov .esp .ecx,
    .pop .ebp, .pop .ebx, .pop .esi, .pop .edi,
    .ret]

/-- A call of `context_switch` whose arguments are on the stack, up to its `ret`. -/
def callSwitch (s : Cpu) : Cpu := contextSwitch.foldl Cpu.exec (s.exec .call)

/-- Where the contexts are; no two of the areas have an address in common. -/
structure Layout (ι : Type) where
  /-- the stack of a context is `[lo, hi)` -/
  lo : ι → ℕ
  hi : ι → ℕ
  slot : ι → ℕ
  hi_lt : ∀ c, hi c < 4294967296
  slot_lt : ∀ c, slot c + 4 ≤ 4294967296
  stackApart : ∀ c d, c ≠ d → hi c ≤ lo d ∨ hi d ≤ lo c
  slotApart : ∀ c d, c ≠ d → slot c + 4 ≤ slot d ∨ slot d + 4 ≤ slot c
  apart : ∀ c d, slot c + 4 ≤ lo d ∨ hi d ≤ slot c
  /-- the address of the code at that label -/
  switchKernToUser : Word

/-- Where a process starts that `proc_create` makes. -/
def Layout.start {ι : Type} (L : Layout ι) (entryPoint : Word) : Word :=
  if entryPoint = 0 then L.switchKernToUser else entryPoint

/-- `proc_create` where it makes the context of the process with that stack: the field `pc`, which is
at `slot`, and what it points to. -/
def procContext (m : Mem) (stack slot : ℕ) (eip : Word) : Mem :=
  let ic := stack + PROC_STACK_SIZE - sizeofIntrContext
  let pc := ic - sizeofProcContext
  store32 (fill (store32 m slot pc) pc 0 sizeofProcContext) (pc + offsetEip) eip.toNat

/-- Where the scheduler and the processes are: the stack that `sched` was called on, the field
`context`, the table of processes and their stacks. -/
structure Placement where
  bootLo : ℕ
  bootHi : ℕ
  context : ℕ
  procTable : ℕ
  stack : ℕ
  switchKernToUser : Word
  boot_lt : bootHi < 4294967296
  stack_lt : stack + PROC_MAX * PROC_STACK_SIZE < 4294967296
  context_lt : context + 4 ≤ 4294967296
  table_lt : procTable + PROC_MAX * sizeofProcCtrlBlk ≤ 4294967296
  boot_stack : bootHi ≤ stack ∨ stack + PROC_MAX * PROC_STACK_SIZE ≤ bootLo
  boot_context : bootHi ≤ context ∨ context + 4 ≤ bootLo
  boot_table : bootHi ≤ procTable ∨ procTable + PROC_MAX * sizeofProcCtrlBlk ≤ bootLo
  stack_context : stack + PROC_MAX * PROC_STACK_SIZE ≤ context ∨ context + 4 ≤ stack
  stack_table : stack + PROC_MAX * PROC_STACK_SIZE ≤ procTable ∨
    procTable + PROC_MAX * sizeofProcCtrlBlk ≤ stack
  context_table : context + 4 ≤ procTable ∨ procTable + PROC_MAX * sizeofProcCtrlBlk ≤ context

/-- The stack of a process is inside the stacks. -/
theorem Placement.stack_le (p : Placement) (i : Fin PROC_MAX) :
    p.stack + i * PROC_STACK_SIZE + PROC_STACK_SIZE ≤ p.stack + PROC_MAX * PROC_STACK_SIZE := by
  have hi : (i : ℕ) < 128 := i.isLt
  simp only [PROC_MAX, PROC_STACK_SIZE]
  omega

/-- The slot of a process is inside the table. -/
theorem Placement.slot_le (p : Placement) (i : Fin PROC_MAX) :
    p.procTable + sizeofProcCtrlBlk * i + offsetPc + 4 ≤
      p.procTable + PROC_MAX * sizeofProcCtrlBlk := by
  have hi : (i : ℕ) < 128 := i.isLt
  simp only [PROC_MAX, sizeofProcCtrlBlk, offsetPc]
  omega

namespace Placement

variable (p : Placement)

/-- The contexts of the code: `none` is the scheduler, and `some i` is the process of slot `i`. -/
def lo (c : Option (Fin PROC_MAX)) : ℕ := c.elim p.bootLo fun i => p.stack + i * PROC_STACK_SIZE

def hi (c : Option (Fin PROC_MAX)) : ℕ :=
  c.elim p.bootHi fun i => p.stack + i * PROC_STACK_SIZE + PROC_STACK_SIZE

def slot (c : Option (Fin PROC_MAX)) : ℕ :=
  c.elim p.context fun i => p.procTable + sizeofProcCtrlBlk * i + offsetPc

variable (c d : Option (Fin PROC_MAX))

theorem hi_lt : p.hi c < 4294967296 := by
  cases c with
  | none => exact p.boot_lt
  | some i =>
    have hi := p.stack_le i
    have hlt := p.stack_lt
    simp only [Placement.hi, Option.elim]
    omega

theorem slot_lt : p.slot c + 4 ≤ 4294967296 := by
  cases c with
  | none => exact p.context_lt
  | some i =>
    have hi := p.slot_le i
    have hlt := p.table_lt
    simp only [slot, Option.elim]
    omega

theorem stackApart (hne : c ≠ d) : p.hi c ≤ p.lo d ∨ p.hi d ≤ p.lo c := by
  have h := p.boot_stack
  cases c with
  | none =>
    cases d with
    | none => exact absurd rfl hne
    | some j =>
      have hj := p.stack_le j
      simp only [lo, Placement.hi, Option.elim]
      omega
  | some i =>
    have hi := p.stack_le i
    cases d with
    | none =>
      simp only [lo, Placement.hi, Option.elim]
      omega
    | some j =>
      have hij : (i : ℕ) ≠ j := fun heq => hne (congrArg some (Fin.ext heq))
      simp only [lo, Placement.hi, Option.elim, PROC_STACK_SIZE]
      omega

theorem slotApart (hne : c ≠ d) : p.slot c + 4 ≤ p.slot d ∨ p.slot d + 4 ≤ p.slot c := by
  have h := p.context_table
  cases c with
  | none =>
    cases d with
    | none => exact absurd rfl hne
    | some j =>
      have hj := p.slot_le j
      simp only [slot, Option.elim]
      omega
  | some i =>
    have hi := p.slot_le i
    cases d with
    | none =>
      simp only [slot, Option.elim]
      omega
    | some j =>
      have hij : (i : ℕ) ≠ j := fun heq => hne (congrArg some (Fin.ext heq))
      simp only [slot, Option.elim, sizeofProcCtrlBlk]
      omega

theorem apart : p.slot c + 4 ≤ p.lo d ∨ p.hi d ≤ p.slot c := by
  cases c with
  | none =>
    cases d with
    | none =>
      have h := p.boot_context
      simp only [lo, Placement.hi, slot, Option.elim]
      omega
    | some j =>
      have h := p.stack_context
      have hj := p.stack_le j
      simp only [lo, Placement.hi, slot, Option.elim]
      omega
  | some i =>
    have hi := p.slot_le i
    cases d with
    | none =>
      have h := p.boot_table
      simp only [lo, Placement.hi, slot, Option.elim]
      omega
    | some j =>
      have h := p.stack_table
      have hj := p.stack_le j
      simp only [lo, Placement.hi, slot, Option.elim]
      omega

def layout : Layout (Option (Fin PROC_MAX)) where
  lo := p.lo
  hi := p.hi
  slot := p.slot
  switchKernToUser := p.switchKernToUser
  hi_lt := p.hi_lt
  slot_lt := p.slot_lt
  stackApart := p.stackApart
  slotApart := p.slotApart
  apart := p.apart

end Placement

/-- `proc_create` on slot `i` makes that context. -/
theorem procFill_context (s : Kernel) (i slot : ℕ) {entryPoint : ℕ} (hpos : entryPoint ≠ 0)
    (hlt : entryPoint < 4294967296) :
    let pc := ((procFill s i entryPoint).blk (s.procAt i)).pc
    procContext s.mem (s.procMgr.stack + i * PROC_STACK_SIZE) slot (BitVec.ofNat 32 entryPoint) =
      (procFill { s with mem := store32 s.mem slot pc } i entryPoint).mem := by
  simp only [procContext, procFill, Function.update_self, if_neg hpos, BitVec.toNat_ofNat,
    Nat.mod_eq_of_lt hlt]

/-- The machine and the context that runs on it. -/
structure Sys (ι : Type) where
  cpu : Cpu
  run : ι

inductive Event (ι : Type) where
  | code
  | create (d : ι) (entryPoint : Word)
  | switch (d : ι)

def Event.Resumes {ι : Type} (c : ι) : Event ι → Prop
  | .switch d => d = c
  | _ => False

def Event.Makes {ι : Type} (c : ι) : Event ι → Prop
  | .create d _ => d = c
  | _ => False

namespace Sys

variable {ι : Type}

/-- The running context has put `&old` and `new` on its stack, where there is room for the return
address and four registers: `old` is its own slot and `new` is what the slot of `d` holds. -/
structure Calls (L : Layout ι) (s : Sys ι) (d : ι) : Prop where
  room : L.lo s.run + 20 ≤ (s.cpu.reg .esp).toNat
  inside : (s.cpu.reg .esp).toNat + 8 ≤ L.hi s.run
  old : loadWord s.cpu.mem (s.cpu.reg .esp) = BitVec.ofNat 32 (L.slot s.run)
  new : loadWord s.cpu.mem (s.cpu.reg .esp + 4) = loadWord s.cpu.mem (BitVec.ofNat 32 (L.slot d))

/-- What the running context leaves alone: the stacks of the others, and the slots. -/
def Keeps (L : Layout ι) (c : ι) (m m' : Mem) : Prop :=
  ∀ x, (∃ d, d ≠ c ∧ L.lo d ≤ x ∧ x < L.hi d) ∨ (∃ d, L.slot d ≤ x ∧ x < L.slot d + 4) →
    m'.byte x = m.byte x

inductive Step (L : Layout ι) : Sys ι → Event ι → Sys ι → Prop
  | code (s : Sys ι) (cpu : Cpu) (hkeep : Keeps L s.run s.cpu.mem cpu.mem) :
      Step L s .code ⟨cpu, s.run⟩
  | create (s : Sys ι) (d : ι) (entryPoint : Word) (hne : d ≠ s.run)
      (hsize : L.hi d = L.lo d + PROC_STACK_SIZE) :
      Step L s (.create d entryPoint)
        ⟨{ s.cpu with mem := procContext s.cpu.mem (L.lo d) (L.slot d) (L.start entryPoint) }, s.run⟩
  | switch (s : Sys ι) (d : ι) (hne : d ≠ s.run) (hcall : s.Calls L d) :
      Step L s (.switch d) ⟨callSwitch s.cpu, d⟩

end Sys

end YohdaOS.P32.Switch
