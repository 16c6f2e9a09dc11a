import RivOS.Support.Memory

/-!
# Mem — The kernel heap

`mem/alloc.hpp`, over byte memory.  Pointers and sizes are 32-bit numbers; where the code computes
an address the sum is taken modulo `2 ^ 32`.  `alloc` follows the block list for as long as it
goes, so it takes fuel, and `none` is a call that has not returned.
-/

namespace RivOS

/-- `heapStart` and `heapEnd` as the linker script places them: 32 MiB behind the kernel image,
which starts at 1 MiB, and in the 128 MiB that `kernelMain` assumes there are. -/
structure HeapRegion where
  heapStart : Nat
  heapEnd : Nat
  image : 0x100000 ≤ heapStart
  size : heapEnd = heapStart + 32 * 2 ^ 20
  memory : heapEnd ≤ 128 * 2 ^ 20

/-! ### Block headers -/

namespace HeapBlock

/-- `sizeof(HeapBlock)`: the structure is packed. -/
def sizeof : Nat := 9

def size (m : Mem) (p : Nat) : Nat := readLE m 4 p
def inUse (m : Mem) (p : Nat) : Bool := m (p + 4) != 0
def next (m : Mem) (p : Nat) : Nat := readLE m 4 (p + 5)

def setSize (m : Mem) (p v : Nat) : Mem := writeLE m 4 p v
def setInUse (m : Mem) (p : Nat) (v : Bool) : Mem := Function.update m (p + 4) v.toUInt8
def setNext (m : Mem) (p v : Nat) : Mem := writeLE m 4 (p + 5) v

end HeapBlock

/-! ### The allocator -/

namespace KernelAllocator

variable (r : HeapRegion)

def init (m : Mem) : Mem :=
  let superBlock := r.heapStart
  let m := HeapBlock.setSize m superBlock 0
  let m := HeapBlock.setInUse m superBlock true
  HeapBlock.setNext m superBlock 0

/-- What `alloc` does at the last block: put a new one behind it, if it stays below `heapEnd`. -/
def extend (bytes currentBlock : Nat) (m : Mem) : Option Nat × Mem :=
  let next := (currentBlock + HeapBlock.sizeof + HeapBlock.size m currentBlock) % 2 ^ 32
  if (next + HeapBlock.sizeof + bytes) % 2 ^ 32 > r.heapEnd then (none, m)
  else
    let m := HeapBlock.setInUse m next true
    let m := HeapBlock.setNext m next 0
    let m := HeapBlock.setSize m next bytes
    let m := HeapBlock.setNext m currentBlock next
    (some ((next + HeapBlock.sizeof) % 2 ^ 32), m)

/-- The loop of `alloc` at `currentBlock`; the pointer `none` is `nullptr`. -/
def allocFrom (bytes : Nat) : Nat → Nat → Mem → Option (Option Nat × Mem)
  | 0, _, _ => none
  | fuel + 1, currentBlock, m =>
      if !HeapBlock.inUse m currentBlock && HeapBlock.size m currentBlock ≥ bytes then
        some (some ((currentBlock + HeapBlock.sizeof) % 2 ^ 32),
          HeapBlock.setInUse m currentBlock true)
      else if HeapBlock.next m currentBlock = 0 then some (extend r bytes currentBlock m)
      else allocFrom bytes fuel (HeapBlock.next m currentBlock) m

def alloc (bytes fuel : Nat) (m : Mem) : Option (Option Nat × Mem) :=
  allocFrom r bytes fuel r.heapStart m

def free (mem : Nat) (m : Mem) : Mem :=
  HeapBlock.setInUse m ((mem + 2 ^ 32 - HeapBlock.sizeof) % 2 ^ 32) false

end KernelAllocator
end RivOS
