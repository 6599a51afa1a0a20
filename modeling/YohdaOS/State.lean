import YohdaOS.Bitmap
import YohdaOS.Links
import YohdaOS.Math

/-!
# The state of the memory manager

The static data of buddy.c, pool.c and mm.c and the memory they manage.  `mem` holds the bitmaps,
the block headers, the chunk headers and whatever the users of blocks and chunks write.  The two
descriptor tables (`bud`, `pools`) and the list nodes are kept as typed data under their addresses;
every address a descriptor stores is the one the code computes.
-/

namespace YohdaOS

open ByteMem

/-- `struct bitmaps`, the descriptor of one order. -/
structure Bitmaps where
  num : ℕ
  frees : ℕ
  bmp : Bitmap

/-- `struct bud_manager`.  `heapSize` is an `int` that `_bud_init` has checked not to be
negative. -/
structure BudManager where
  dep : ℕ
  bitmapSize : ℕ
  ll : ℕ
  ul : ℕ
  hdrBase : ℕ
  hdrSize : ℕ
  orgSize : ℤ
  heapMetaBase : ℕ
  heapMetaSize : ℤ
  heapBase : ℕ
  heapSize : ℕ
  rmdSize : ℤ

/-- `struct lazy_buddy`; `frees` and `inuses` are the addresses of the two list heads. -/
structure LazyBuddy where
  frees : ℕ
  inuses : ℕ
  batch : ℤ
  wmk : ℤ
  unum : ℤ
  fnum : ℤ

/-- `struct mm_pool` -/
structure MmPool where
  base : ℕ
  size : ℤ
  llc : ℤ
  ulc : ℤ
  dataSize : ℤ
  num : ℤ

/-- `struct pool`, the descriptor of one class. -/
structure Pool where
  base : ℕ
  head : ℕ
  size : ℕ
  frees : ℕ
  chunk : ℕ
  ll : ℤ

structure Mm where
  mem : Mem
  bm : BudManager
  bud : ℕ → Bitmaps
  lazy : LazyBuddy
  links : Links
  /-- the field `addr` of the `struct lazy_page` at an address -/
  pageAddr : ℕ → ℕ
  pmm : MmPool
  pools : ℕ → Pool
  /-- `mmm.sec.base` -/
  secBase : ℕ
  /-- `mmm.sec.size` -/
  secSize : ℤ

/-- The state before initialisation: the static data is zero, the memory arbitrary, and the linker
has placed the two list heads. -/
def Mm.boot (mem : Mem) (frees inuses : ℕ) : Mm where
  mem := mem
  bm := ⟨0, 0, 0, 0, 0, 0, 0, 0, 0, 0, 0, 0⟩
  bud := fun _ => ⟨0, 0, ⟨0, 0, 0⟩⟩
  lazy := ⟨frees, inuses, 0, 0, 0, 0⟩
  links := ⟨fun _ => 0, fun _ => 0⟩
  pageAddr := fun _ => 0
  pmm := ⟨0, 0, 0, 0, 0, 0⟩
  pools := fun _ => ⟨0, 0, 0, 0, 0, 0⟩
  secBase := 0
  secSize := 0

end YohdaOS
