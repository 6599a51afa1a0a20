import YohdaOS.Lib.Memory
import YohdaOS.Lib.Runs
import YohdaOS.Machine

/-!
# stack.c

A stack of pointers in an array.  `top` is the index of the last element; on an empty stack it is
the unsigned value of -1, so that the first push makes it zero.  No function knows how long the
array is.
-/

namespace YohdaOS

open ByteMem Runs

/-- `STK_EMPTY` as a `u32` -/
def STK_EMPTY : ℕ := toU32 (-1)

/-- `struct stack` -/
structure Stack where
  top : ℕ
  stk : ℕ

/-- The memory with the stack. -/
structure StackMem where
  mem : Mem
  ptr : Stack

/-- The address of the element with index `i`. -/
def Stack.slot (s : Stack) (i : ℕ) : ℕ := u32 (s.stk + 4 * i)

/-- `stack_init`, where `mm_alloc` returns `stk`. -/
def stackInit (s : StackMem) (size : ℤ) (stk : ℕ) : Option StackMem :=
  if size < 1 then none
  else if stk = 0 then none
  else some { s with ptr := ⟨STK_EMPTY, stk⟩ }

/-- The value a function returns, the address of the element that it accesses, and the state. -/
structure StackRet where
  ret : ℕ
  access : Option ℕ
  s : StackMem

def stackPop (s : StackMem) : StackRet :=
  if s.ptr.stk = 0 then ⟨0, none, s⟩
  else if s.ptr.top = STK_EMPTY then ⟨0, none, s⟩
  else
    let a := s.ptr.slot s.ptr.top
    ⟨load32 s.mem a, some a, { s with ptr := { s.ptr with top := toU32 (s.ptr.top - 1) } }⟩

def stackPush (s : StackMem) (data : ℕ) : StackRet :=
  if s.ptr.stk = 0 then ⟨0, none, s⟩
  else if data = 0 then ⟨0, none, s⟩
  else
    let top := u32 (s.ptr.top + 1)
    let a := s.ptr.slot top
    ⟨data, some a, ⟨store32 s.mem a data, { s.ptr with top }⟩⟩

def stackPeek (s : StackMem) : StackRet :=
  if s.ptr.stk = 0 then ⟨0, none, s⟩
  else if s.ptr.top = 0 then ⟨0, none, s⟩
  else
    let a := s.ptr.slot s.ptr.top
    ⟨load32 s.mem a, some a, s⟩

/-! ## Runs -/

/-- A pointer that is not NULL. -/
abbrev NonNull : Type := { p : BitVec 32 // p ≠ 0 }

inductive StackOp where
  | push (data : NonNull)
  | pop
  | peek

/-- What a stack with room for `cap` pointers yields, its last element first, and what it then
holds.  A push that does not fit yields nothing and changes nothing. -/
def StackOp.apply (cap : ℕ) (xs : List NonNull) : StackOp → Option NonNull × List NonNull
  | push data => if xs.length < cap then (some data, data :: xs) else (none, xs)
  | pop => (xs.head?, xs.tail)
  | peek => (xs.head?, xs)

/-- A call, with what it returns and whether it keeps to the `size` bytes from `stk` on. -/
def stackStep (stk size : ℕ) (s : StackMem) (op : StackOp) : (ℕ × Bool) × StackMem :=
  let r := match op with
    | .push data => stackPush s data.val.toNat
    | .pop => stackPop s
    | .peek => stackPeek s
  ((r.ret, r.access.all fun a => decide (stk ≤ a ∧ a + 4 ≤ stk + size)), r.s)

/-- What the call is to do: NULL stands for nothing, and no access is outside the array. -/
def lifoStep (cap : ℕ) (xs : List NonNull) (op : StackOp) : (ℕ × Bool) × List NonNull :=
  let r := op.apply cap xs
  ((r.1.elim 0 fun x => x.val.toNat, true), r.2)

/-- The push fits, and the peek finds more than one element. -/
def StackFits (cap : ℕ) (xs : List NonNull) : StackOp → Prop
  | .push _ => xs.length < cap
  | .pop => True
  | .peek => 2 ≤ xs.length

instance (cap : ℕ) (xs : List NonNull) : DecidablePred (StackFits cap xs)
  | .push _ => inferInstanceAs (Decidable (_ < _))
  | .pop => inferInstanceAs (Decidable True)
  | .peek => inferInstanceAs (Decidable (_ ≤ _))

/-- The elements lie in the array from `stk` on, the first one pushed first. -/
def Stored (m : Mem) (stk : ℕ) : List NonNull → Prop
  | [] => True
  | x :: xs => load32 m (stk + 4 * xs.length) = x.val.toNat ∧ Stored m stk xs

/-- The stack of the state holds `xs`. -/
structure Holds (stk cap : ℕ) (s : StackMem) (xs : List NonNull) : Prop where
  array : s.ptr.stk = stk
  top : s.ptr.top = toU32 ((xs.length : ℤ) - 1)
  le : xs.length ≤ cap
  stored : Stored s.mem stk xs

/-- Writing behind the elements keeps them. -/
theorem Stored.store {m : Mem} {stk v : ℕ} {xs : List NonNull} (h : Stored m stk xs) {a : ℕ}
    (ha : stk + 4 * xs.length ≤ a) : Stored (store32 m a v) stk xs := by
  induction xs with
  | nil => trivial
  | cons x xs ih =>
    rw [List.length_cons] at ha
    refine ⟨?_, ih h.2 (by omega)⟩
    rw [load32_store32_of_disjoint _ _ (Or.inl (by omega))]
    exact h.1

theorem NonNull.toNat_ne_zero (x : NonNull) : x.val.toNat ≠ 0 := by
  intro h
  exact x.2 (BitVec.eq_of_toNat_eq h)

section Step

variable {stk size : ℕ} (hstk : stk ≠ 0) (hmax : size < 2147483648) (hfit : stk + size ≤ 4294967296)
  {s : StackMem} {xs : List NonNull}

include hstk hmax hfit

/-- A call that fits does what it is to do. -/
theorem Holds.step (h : Holds stk (size / 4) s xs) {op : StackOp}
    (hop : StackFits (size / 4) xs op) :
    (stackStep stk size s op).1 = (lifoStep (size / 4) xs op).1 ∧
      Holds stk (size / 4) (stackStep stk size s op).2 (lifoStep (size / 4) xs op).2 := by
  have hbase : s.ptr.stk ≠ 0 := h.array ▸ hstk
  have hle := h.le
  have htop := h.top
  cases op with
  | push x =>
    have hroom : xs.length < size / 4 := hop
    have hnext : u32 (s.ptr.top + 1) = xs.length := by
      rw [htop]
      unfold u32 toU32
      omega
    have hslot : s.ptr.slot xs.length = stk + 4 * xs.length := by
      rw [Stack.slot, h.array, u32_of_lt (by omega)]
    simp only [stackStep, stackPush, lifoStep, StackOp.apply, if_neg hbase, if_neg x.toNat_ne_zero,
      if_pos hroom, hnext, hslot, Option.elim_some, Option.all_some]
    refine ⟨?_, h.array, ?_, hroom, ?_, h.stored.store le_rfl⟩
    · rw [decide_eq_true (by omega)]
    · rw [List.length_cons, toU32_of_nonneg (by omega) (by omega)]
      simp
    · exact load32_store32 _ _ x.val.isLt
  | pop =>
    cases xs with
    | nil =>
      have hempty : s.ptr.top = STK_EMPTY := htop
      simp only [stackStep, stackPop, lifoStep, StackOp.apply, if_neg hbase, if_pos hempty]
      exact ⟨rfl, h⟩
    | cons x xs =>
      rw [List.length_cons] at hle htop
      have hlast : s.ptr.top = xs.length := by
        rw [htop, toU32_of_nonneg (by omega) (by omega)]
        omega
      have hfull : ¬xs.length = STK_EMPTY := by
        have : STK_EMPTY = 4294967295 := by decide
        omega
      have hslot : s.ptr.slot xs.length = stk + 4 * xs.length := by
        rw [Stack.slot, h.array, u32_of_lt (by omega)]
      simp only [stackStep, stackPop, lifoStep, StackOp.apply, if_neg hbase, hlast, if_neg hfull, hslot,
        h.stored.1, List.head?_cons, List.tail_cons, Option.elim_some, Option.all_some]
      refine ⟨?_, h.array, rfl, by omega, h.stored.2⟩
      rw [decide_eq_true (by omega)]
  | peek =>
    have htwo : 2 ≤ xs.length := hop
    obtain ⟨x, xs, rfl⟩ := List.exists_cons_of_length_pos (by omega : 0 < xs.length)
    rw [List.length_cons] at hle htop htwo
    have hlast : s.ptr.top = xs.length := by
      rw [htop, toU32_of_nonneg (by omega) (by omega)]
      omega
    have hslot : s.ptr.slot xs.length = stk + 4 * xs.length := by
      rw [Stack.slot, h.array, u32_of_lt (by omega)]
    simp only [stackStep, stackPeek, lifoStep, StackOp.apply, if_neg hbase, hlast,
      if_neg (show ¬xs.length = 0 by omega), hslot, h.stored.1, List.head?_cons, Option.elim_some,
      Option.all_some]
    refine ⟨?_, h⟩
    rw [decide_eq_true (by omega)]

omit hfit in
/-- A call that does not fit is seen: the push is not refused, and the peek misses the only element
or reads in front of the array. -/
theorem Holds.step_ne (h : Holds stk (size / 4) s xs) {op : StackOp}
    (hop : ¬StackFits (size / 4) xs op) :
    (stackStep stk size s op).1 ≠ (lifoStep (size / 4) xs op).1 := by
  have hbase : s.ptr.stk ≠ 0 := h.array ▸ hstk
  have htop := h.top
  cases op with
  | push x =>
    have hfull : ¬xs.length < size / 4 := hop
    simp only [stackStep, stackPush, lifoStep, StackOp.apply, if_neg hbase, if_neg x.toNat_ne_zero,
      if_neg hfull, Option.elim_none]
    intro heq
    exact x.toNat_ne_zero (congrArg Prod.fst heq)
  | pop => exact absurd trivial hop
  | peek =>
    have htwo : ¬2 ≤ xs.length := hop
    match xs with
    | [] =>
      have hempty : s.ptr.top = 4294967295 := htop
      have hslot : s.ptr.slot 4294967295 = u32 (stk + 4 * 4294967295) := by rw [Stack.slot, h.array]
      have hpeek : stackPeek s = ⟨load32 s.mem (s.ptr.slot 4294967295), some (s.ptr.slot 4294967295),
          s⟩ := by
        rw [stackPeek, if_neg hbase, hempty]
        rfl
      intro heq
      simp only [stackStep, lifoStep, hpeek, hslot] at heq
      have hin : decide (stk ≤ u32 (stk + 4 * 4294967295) ∧
          u32 (stk + 4 * 4294967295) + 4 ≤ stk + size) = true := congrArg Prod.snd heq
      rw [decide_eq_true_eq] at hin
      unfold u32 at hin
      omega
    | [x] =>
      have hzero : s.ptr.top = 0 := htop
      simp only [stackStep, stackPeek, lifoStep, StackOp.apply, if_neg hbase, if_pos hzero]
      intro heq
      exact x.toNat_ne_zero (congrArg Prod.fst heq).symm
    | _ :: _ :: _ => exact absurd (Nat.le_add_left 2 _) htwo

end Step

/-- The calls after `stack_init` return what those of a stack return and keep to the array exactly
when no push exceeds it and no peek finds fewer than two elements. -/
theorem stack_lifo_iff (s₀ : StackMem) {stk size : ℕ} (hsize : 1 ≤ size) (hmax : size < 2147483648)
    (hstk : stk ≠ 0) (hfit : stk + size ≤ 4294967296) (ops : List (StackOp)) :
    ∃ s, stackInit s₀ size stk = some s ∧
      ((runOps (stackStep stk size) s ops).1 = (runOps (lifoStep (size / 4)) [] ops).1 ↔
        Admitted (StackFits (size / 4)) (lifoStep (size / 4)) [] ops) := by
  refine ⟨{ s₀ with ptr := ⟨STK_EMPTY, stk⟩ }, ?_, ?_⟩
  · rw [stackInit, if_neg (by omega), if_neg hstk]
  · apply runOps_outputs_iff (R := Holds stk (size / 4))
    · exact fun s xs op h hop => h.step hstk hmax hfit hop
    · exact fun s xs op h hop => h.step_ne hstk hmax hop
    · exact ⟨rfl, rfl, Nat.zero_le _, trivial⟩

theorem stack_lifo_iff_two :
    (runOps (stackStep 4096 8) ⟨⟨fun _ => 0⟩, ⟨STK_EMPTY, 4096⟩⟩
      [.push ⟨1, by decide⟩, .push ⟨2, by decide⟩, .peek, .pop, .pop, .pop]).1 =
    [(1, true), (2, true), (2, true), (2, true), (1, true), (0, true)] := by
  obtain ⟨s, hs, hiff⟩ := stack_lifo_iff ⟨⟨fun _ => 0⟩, ⟨0, 0⟩⟩ (show 1 ≤ 8 by decide) (by decide)
    (show 4096 ≠ 0 by decide) (by decide)
    [.push ⟨1, by decide⟩, .push ⟨2, by decide⟩, .peek, .pop, .pop, .pop]
  obtain rfl := Option.some.inj hs
  exact hiff.2 ⟨by decide, by decide, by decide, trivial, trivial, trivial, trivial⟩

/-- A single element is popped, but not seen by a peek. -/
theorem stack_lifo_fails :
    ¬ ∀ (s₀ s : StackMem) (stk size : ℕ), 1 ≤ size → size < 2147483648 → stk ≠ 0 →
      stk + size ≤ 4294967296 → stackInit s₀ size stk = some s →
      ∀ ops, (runOps (stackStep stk size) s ops).1 = (runOps (lifoStep (size / 4)) [] ops).1 := by
  intro h
  have hpeek := h ⟨⟨fun _ => 0⟩, ⟨0, 0⟩⟩ ⟨⟨fun _ => 0⟩, ⟨STK_EMPTY, 4096⟩⟩ 4096 8 (by decide)
    (by decide) (by decide) (by decide) rfl [.push ⟨1, by decide⟩, .peek]
  exact absurd hpeek (by decide)

end YohdaOS
