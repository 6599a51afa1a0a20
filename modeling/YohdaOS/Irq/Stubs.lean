import YohdaOS.Irq.Idt
import YohdaOS.Irq.Lock
import YohdaOS.Switch.Run

/-!
# isr.asm

The processor delivers an interrupt through the gate of its vector; the stub behind the gate saves the
registers, calls a handler, restores the registers and returns.  Between any two instructions, of a
stub or of a handler, other interrupts may be delivered.
-/

namespace YohdaOS.P32.Isr

open ByteMem Switch Relation

inductive Seg where
  | ds
  | es
  | fs
  | gs
deriving DecidableEq, Repr

structure Machine extends Cpu where
  eflags : Word
  cs : BitVec 16
  seg : Seg → BitVec 16

inductive Instr where
  | cli
  | sti
  | cld
  | pushad
  | popad
  | mov (dst src : Reg)
  | push (imm : Word)
  | pushSeg (r : Seg)
  | popSeg (r : Seg)
  | call
  | addEsp (n : Word)
  | iret
deriving DecidableEq, Repr

/-- The bit DF of EFLAGS. -/
def EFLAGS_DF : BitVec 32 := 0x400

/-- The bits TF, NT, RF and VM, which a delivery clears. -/
def EFLAGS_TRAP : BitVec 32 := 0x34100

namespace Machine

variable (s : Machine)

def esp : Word := s.reg .esp

def set (r : Reg) (v : Word) : Machine := { s with toCpu := s.toCpu.set r v }

def push (v : Word) : Machine := { s with toCpu := s.toCpu.pushWord v }

/-- The word at the top of the stack. -/
def top : Word := loadWord s.mem s.esp

def drop (n : Word) : Machine := s.set .esp (s.esp + n)

/-- `pushad` saves the stack pointer it began with. -/
def pushAll : Machine :=
  ([.eax, .ecx, .edx, .ebx, .esp, .ebp, .esi, .edi].map s.reg).foldl push s

def popReg (r : Reg) : Machine := (s.drop 4).set r s.top

/-- `popad` skips the stack pointer. -/
def popAll : Machine :=
  ((((((((s.popReg .edi).popReg .esi).popReg .ebp).drop 4).popReg .ebx).popReg .edx).popReg
    .ecx).popReg .eax)

/-- The end of a function: the return address is taken from the stack. -/
def leave : Machine := { s.drop 4 with eip := s.top }

/-- `eip` is the address of the next instruction; a push of a segment register extends it by zeros. -/
def exec (s : Machine) : Instr → Machine
  | .cli => { s with eflags := Irq.cli s.eflags }
  | .sti => { s with eflags := Irq.sti s.eflags }
  | .cld => { s with eflags := s.eflags &&& ~~~EFLAGS_DF }
  | .pushad => s.pushAll
  | .popad => s.popAll
  | .mov dst src => s.set dst (s.reg src)
  | .push imm => s.push imm
  | .pushSeg r => s.push ((s.seg r).setWidth 32)
  | .popSeg r => { s.drop 4 with seg := Function.update s.seg r (s.top.setWidth 16) }
  | .call => s.push s.eip
  | .addEsp n => s.drop n
  | .iret =>
    { s.drop 12 with
      eip := s.top
      cs := (loadWord s.mem (s.esp + 4)).setWidth 16
      eflags := loadWord s.mem (s.esp + 8) }

end Machine

/-- The bytes that an instruction needs below the stack pointer. -/
def Instr.room : Instr → ℕ
  | .pushad => 32
  | .push _ | .pushSeg _ | .call => 4
  | _ => 0

/-! ## The stubs -/

/-- What a stub does before it calls its handler and after that. -/
structure Stub where
  before : List Instr
  after : List Instr

def Stub.code (p : Stub) : List Instr := p.before ++ .call :: p.after

/-- A stub of a fault without an error code: it pushes a zero for it. -/
def stubPlain (irq : Word) : Stub where
  before := [.cli, .pushad, .mov .ebp .esp, .cld, .push 0, .push irq]
  after := [.addEsp 8, .popad, .sti, .iret]

/-- A stub of a fault with an error code, which is below the registers then. -/
def stubErr (irq : Word) : Stub where
  before := [.cli, .pushad, .mov .ebp .esp, .cld, .push irq]
  after := [.addEsp 8, .popad, .sti, .iret]

/-- A stub that builds a `struct exception_info`. -/
def stubInfo (irq : Word) : Stub where
  before := [.cli, .cld, .push irq, .pushad, .pushSeg .gs, .pushSeg .fs, .pushSeg .es, .pushSeg .ds]
  after := [.popSeg .ds, .popSeg .es, .popSeg .fs, .popSeg .gs, .popad, .addEsp 8, .sti, .iret]

def stubInterrupt (irq : Word) : Stub where
  before := [.pushad, .mov .ebp .esp, .cld, .push irq]
  after := [.addEsp 4, .popad, .iret]

def isrDivisionError : Stub := stubPlain 0
def isrDebug : Stub := stubPlain 1
def isrNonMaskableInterrupt : Stub := stubPlain 2
def isrBreakpoint : Stub := stubPlain 3
def isrOverflow : Stub := stubPlain 4
def isrBoundRangeExceeded : Stub := stubPlain 5
def isrInvalidOpcode : Stub := stubPlain 6
def isrDeviceNotAvailable : Stub := stubPlain 7
def isrDoubleFault : Stub := stubErr 8
def isrInvalidTss : Stub := stubErr 10
def isrSegmentNotPresent : Stub := stubErr 11
def isrStackSegmentFault : Stub := stubErr 12
def isrGeneralProtectionFault : Stub := stubInfo 13
def isrPageFault : Stub := stubInfo 14
def isrX87FloatingPointException : Stub := stubPlain 16
def isrAlignmentCheck : Stub := stubErr 17
def isrMachineCheck : Stub := stubPlain 18
def isrSimdFloatingPointException : Stub := stubPlain 19
def isrVirtualizationException : Stub := stubPlain 20
def isrSystemTimerInterrupt : Stub := stubInterrupt 32
def isrPs2KeyboardInterrupt : Stub := stubInterrupt 33
def isrSyscall : Stub := stubInterrupt 80

/-! ## Handlers -/

/-- A handler: the steps of its code, and where it is about to return. -/
structure Handler where
  step : Machine → Machine → Prop
  ret : Machine → Prop

/-- A handler that ends in `while(1)`. -/
def Handler.forever (step : Machine → Machine → Prop) : Handler := ⟨step, fun _ => False⟩

/-- What interrupts may use: the stack `[lo, hi)` and the data of their handlers. -/
structure Area where
  lo : ℕ
  hi : ℕ
  data : ℕ → Prop
  apart : ∀ x, data x → x < lo ∨ hi ≤ x

/-- What the interrupted code sees is unchanged: its registers, and the memory but for the data of the
handlers and the free part of the stack. -/
structure Kept (A : Area) (s s' : Machine) : Prop where
  reg : s'.reg = s.reg
  eip : s'.eip = s.eip
  eflags : s'.eflags = s.eflags
  cs : s'.cs = s.cs
  seg : s'.seg = s.seg
  mem : ∀ x, ¬A.data x → x < A.lo ∨ s.esp.toNat ≤ x → s'.mem.byte x = s.mem.byte x

/-- The calling convention, for a handler that writes that many bytes of its arguments: while it runs,
and is interrupted by what keeps its registers and its stack, it writes nothing but its data, these
bytes and the stack below them, and where it returns the stack pointer and the segment registers are
as they were. -/
structure Handler.Cdecl (A : Area) (args : ℕ) (h : Handler) : Prop where
  below : ∀ s u, ReflTransGen (fun a b => h.step a b ∨ Kept A a b) s u → u.esp.toNat ≤ s.esp.toNat
  mem : ∀ s u, ReflTransGen (fun a b => h.step a b ∨ Kept A a b) s u →
    ∀ x, ¬A.data x → x < A.lo ∨ s.esp.toNat + 4 + args ≤ x → u.mem.byte x = s.mem.byte x
  esp : ∀ s u, ReflTransGen (fun a b => h.step a b ∨ Kept A a b) s u → h.ret u → u.esp = s.esp
  seg : ∀ s u, ReflTransGen (fun a b => h.step a b ∨ Kept A a b) s u → h.ret u → u.seg = s.seg

section Runs

variable (A : Area) (env : Machine → Machine → Prop) (h : Handler)

/-- One instruction of a stub, on a stack with room for it; `next` is the address behind it.  A call
is the run of the handler, with what is delivered meanwhile. -/
inductive Does : Instr → Machine → Machine → Prop
  | plain (i : Instr) (s : Machine) (next : Word) (hcall : i ≠ .call) (hiret : i ≠ .iret)
      (hroom : A.lo + i.room ≤ s.esp.toNat) : Does i s { s.exec i with eip := next }
  | iret (s : Machine) : Does .iret s (s.exec .iret)
  | call (s u : Machine) (next : Word) (hroom : A.lo + Instr.call.room ≤ s.esp.toNat)
      (hrun : ReflTransGen (fun a b => h.step a b ∨ env a b) { s.exec .call with eip := next } u)
      (hret : h.ret u) : Does .call s u.leave

/-- Instructions one after another, with what is delivered before each. -/
inductive Runs : List Instr → Machine → Machine → Prop
  | nil (s : Machine) : Runs [] s s
  | cons {s t u s' : Machine} {i : Instr} {is : List Instr} (henv : ReflTransGen env s t)
      (hdo : Does A env h i t u) (hrest : Runs is u s') : Runs (i :: is) s s'

end Runs

/-! ## Delivery -/

/-- The code that `interrupt_init`, `pit_init` and `keyboard_init` register. -/
inductive Label where
  | divisionError
  | nonMaskableInterrupt
  | generalProtectionFault
  | pageFault
  | systemTimerInterrupt
  | ps2KeyboardInterrupt
  | commonHandler
deriving DecidableEq, Repr

/-- The stub at a label; `isr_common_handler` is entered itself, and does not return. -/
def Label.stub : Label → Option Stub
  | .divisionError => some isrDivisionError
  | .nonMaskableInterrupt => some isrNonMaskableInterrupt
  | .generalProtectionFault => some isrGeneralProtectionFault
  | .pageFault => some isrPageFault
  | .systemTimerInterrupt => some isrSystemTimerInterrupt
  | .ps2KeyboardInterrupt => some isrPs2KeyboardInterrupt
  | .commonHandler => none

/-- The kernel: where its table and its code are, and the handlers that its stubs call. -/
structure Kernel where
  area : Area
  idtTbl : ℕ
  addr : Label → Word
  addr_inj : Function.Injective addr
  idt_apart : ∀ x, idtTbl ≤ x → x < idtTbl + sizeofEntry * IDT_MAX_ENTRYS →
    ¬area.data x ∧ (x < area.lo ∨ area.hi ≤ x)
  /-- the steps of the handlers that do not return -/
  fault : Label → Machine → Machine → Prop
  isrSystemTimerHandler : Handler
  isrPs2KeyboardInterruptHandler : Handler
  timer_cdecl : isrSystemTimerHandler.Cdecl area 4
  keyboard_cdecl : isrPs2KeyboardInterruptHandler.Cdecl area 4

namespace Kernel

variable (K : Kernel)

def handler : Label → Handler
  | .systemTimerInterrupt => K.isrSystemTimerHandler
  | .ps2KeyboardInterrupt => K.isrPs2KeyboardInterruptHandler
  | l => .forever (K.fault l)

/-- The calls of `interrupt_init`. -/
def interruptInit : List Registration :=
  ((List.range INT_VEC_MAX).map fun i : ℕ => ⟨(i : ℤ), K.addr .commonHandler, IDT_KERN_TRAP⟩) ++
    [⟨0x00, K.addr .divisionError, IDT_KERN_TRAP⟩,
      ⟨0x02, K.addr .nonMaskableInterrupt, IDT_KERN_TRAP⟩,
      ⟨0x0D, K.addr .generalProtectionFault, IDT_KERN_TRAP⟩,
      ⟨0x0E, K.addr .pageFault, IDT_KERN_TRAP⟩]

/-- The call of `pit_init`. -/
def pitInit : List Registration := [⟨0x20, K.addr .systemTimerInterrupt, IDT_KERN_TRAP⟩]

/-- The call of `keyboard_init`. -/
def keyboardInit : List Registration := [⟨0x21, K.addr .ps2KeyboardInterrupt, IDT_KERN_TRAP⟩]

/-- The calls of `main`. -/
def registrations : List Registration := K.interruptInit ++ K.pitInit ++ K.keyboardInit

end Kernel

inductive Cause where
  | exception
  | external
  | software
deriving DecidableEq, Repr

structure Event where
  cause : Cause
  vector : ℕ
  code : Word

/-- The error code, for the exceptions that have one. -/
def Event.err (e : Event) : Option Word :=
  if e.cause = .exception ∧ e.vector ∈ [8, 10, 11, 12, 13, 14, 17] then some e.code else none

/-- The processor accepts an interrupt: the gate is present, and a line is served only while
interrupts are enabled. -/
structure Event.Accepted (e : Event) (g : Gate) (s : Machine) : Prop where
  vector : e.vector < IDT_MAX_ENTRYS
  present : g.attr.getLsbD 7
  enabled : e.cause = .external → s.eflags &&& Irq.EFLAGS_IF ≠ 0

/-- The delivery of an interrupt through a gate; a trap gate, whose attribute is odd, leaves
interrupts enabled. -/
def deliver (g : Gate) (err : Option Word) (s : Machine) : Machine :=
  let t := ((s.push s.eflags).push (s.cs.setWidth 32)).push s.eip
  let t := err.elim t t.push
  let cleared := if g.attr.getLsbD 0 then EFLAGS_TRAP else EFLAGS_TRAP ||| Irq.EFLAGS_IF
  { t with eip := g.offset, cs := g.selector, eflags := s.eflags &&& ~~~cleared }

/-- The gate of an event, which is in the memory. -/
def Kernel.gate (K : Kernel) (s : Machine) (e : Event) : Gate := gateAt s.mem K.idtTbl e.vector

/-- An interrupt that is delivered in the first state returns in the second, with others nested in it
to that depth. -/
def Kernel.Serve (K : Kernel) : ℕ → Machine → Machine → Prop
  | 0, _, _ => False
  | depth + 1, s, s' => ∃ (e : Event) (l : Label) (p : Stub), e.Accepted (K.gate s e) s ∧
      (K.gate s e).offset = K.addr l ∧ l.stub = some p ∧ K.area.lo + 16 ≤ s.esp.toNat ∧
      Runs K.area (K.Serve depth) (K.handler l) p.code (deliver (K.gate s e) e.err s) s'

end YohdaOS.P32.Isr
