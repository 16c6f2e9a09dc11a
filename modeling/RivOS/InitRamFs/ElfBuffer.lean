import RivOS.InitRamFs.Lookup
import RivOS.Mem.HeapOwned

/-!
# InitRamFs — The buffer of an executable

`InitRamFs::init` allocates as many bytes as the executable of a driver has, and `RivFs::read`
copies it there with `strcpyLen`, which adds a NUL.

* `alloc_firstFit`: which block a request gets, and where it ends.
* `exists_elf`: in an image of `genfs` every file of the tree is there to be read, and is smaller than
  the image by more than a block header.
* `read_frame_iff`: when the copy leaves the rest of the heap alone.
* `size_after_read`: what becomes of the header behind a block that is filled.
-/

namespace RivOS

open FirstFit (Block)
open HeapBlock (sizeof)

/-! ### The code -/

/-- `RivFs::read` into the memory from `obuf` on. -/
def RivFs.readInto (img : PMem) (f : RivFs.File) (obuf : Nat) (m : Mem) : Option Mem := do
  let bytes ← RivFs.read img f
  return store m obuf bytes

/-! ### The block -/

namespace KernelAllocator

variable {r : HeapRegion} {m m' : Mem} {bs : List Block} {n p fuel : Nat}

/-- The block of a request for `n` bytes: the first one that fits, or a new one. -/
def firstFit (r : HeapRegion) (n : Nat) (bs : List Block) : Block :=
  (bs.find? (Block.fits n)).getD ⟨FirstFit.finish sizeof r.heapStart bs, n, true⟩

/-- A request that is granted gets its block, from whose payload on nothing is written. -/
theorem alloc_firstFit (hh : Heap r m bs) (hn : n < 2 ^ 32) (hroom : Heap.RoomFor r n bs)
    (ha : alloc r n fuel m = some (some p, m')) :
    p = (firstFit r n bs).payload sizeof ∧ n ≤ (firstFit r n bs).size ∧
      r.heapStart ≤ p ∧ (firstFit r n bs).stop sizeof ≤ r.heapEnd ∧ ∀ x, p ≤ x → m' x = m x := by
  have h9 : sizeof = 9 := rfl
  obtain ⟨bs, t, rfl⟩ : ∃ bs' t, bs = bs' ++ [t] := by
    rcases List.eq_nil_or_concat bs with rfl | ⟨bs', t, rfl⟩
    · cases hh.super
    · exact ⟨bs', t, List.concat_eq_append⟩
  rw [firstFit]
  cases hfind : (bs ++ [t]).find? (Block.fits n) with
  | some b =>
      have hloop := allocFrom_mono ha (Nat.le_max_right (bs.length + 1) fuel)
      rw [allocFrom_eq r hh.listed (Nat.lt_of_lt_of_le (Nat.lt_succ_self _) (Nat.le_max_left ..)),
        hfind] at hloop
      cases hloop
      have hb := List.mem_of_find?_eq_some hfind
      have hfree : b.inUse = false ∧ n ≤ b.size := by
        simpa [Block.fits] using List.find?_some hfind
      obtain ⟨hlo, hhi, hlt⟩ := hh.block_bounds hb
      simp only [Block.stop] at hhi
      refine ⟨?_, hfree.2, ?_, ?_, ?_⟩
      · rw [Nat.mod_eq_of_lt (by omega), Option.getD_some, Block.payload]
      · rw [Nat.mod_eq_of_lt (by omega)]
        omega
      · rw [Option.getD_some, Block.stop]
        omega
      · intro x hx
        rw [Nat.mod_eq_of_lt (by omega)] at hx
        exact (HeapBlock.set_of_not_mem (e := 0) (n := 0) (by omega)).1
  | none =>
      have hnofit : ¬ ∃ b ∈ bs ++ [t], b.fits n = true := by
        rintro ⟨b, hb, hfit⟩
        exact List.find?_eq_none.mp hfind b hb hfit
      have hlow := FirstFit.le_finish hh.tiled
      rcases (alloc_inv hh hn ha).resolve_right fun hno => hno.1 hroom with
        ⟨-, ⟨b, hb, hfit, -⟩ | ⟨hp, -⟩ | ⟨hp, hh'⟩⟩
      · exact absurd ⟨b, hb, hfit⟩ hnofit
      · cases hp
      · cases hp
        obtain ⟨-, hhi, -⟩ := hh'.block_bounds (List.mem_append_right _ List.mem_cons_self)
        refine ⟨rfl, Nat.le_refl n, by omega, hhi, fun x hx => ?_⟩
        by_contra hne
        -- only headers are written, and these lie before the new payload
        rcases alloc_writes hh hn ha hne with ⟨c, hc, -, hlt⟩ | ⟨-, hlt⟩
        · have := (hh.tiled.bounds hc).2
          simp only [Block.payload] at hlt
          simp only [Block.stop] at this
          omega
        · omega

end KernelAllocator

/-! ### A NUL too many -/

section Frame

variable {m : Mem} {p size lo : Nat} {conts : List UInt8}

theorem store_nul : store m p (conts ++ [0]) (p + conts.length) = 0 := by
  rw [← store_store rfl]
  exact Function.update_self ..

/-- Bytes and a NUL stay in a payload that is larger, or where there is a zero behind it, or none of
the memory in question. -/
theorem store_nul_frame_iff (hlo : lo ≤ p) (hi : Nat) (hsize : conts.length ≤ size) :
    (∀ x, lo ≤ x → x < hi → ¬ (p ≤ x ∧ x < p + size) → store m p (conts ++ [0]) x = m x) ↔
      conts.length < size ∨ m (p + size) = 0 ∨ hi ≤ p + size := by
  constructor
  · intro h
    by_contra hno
    have heq : conts.length = size := by omega
    have hkept := h (p + size) (by omega) (by omega) (by omega)
    rw [← heq, store_nul, heq] at hkept
    exact hno (.inr (.inl hkept.symm))
  · intro h x hx hx' hout
    by_cases hbehind : x = p + conts.length
    · obtain hlt | hzero | hend := h
      · omega
      · have heq : conts.length = size := by omega
        rw [hbehind, store_nul, heq, hzero]
      · omega
    · refine store_of_not_mem ?_
      simp only [List.length_append, List.length_singleton]
      omega

end Frame

namespace RivFs

open Genfs
open KernelAllocator (firstFit alloc_firstFit smallImage)

variable {img : PMem} {fs : RivFs} {root : DirNode} {c : Name} {cs : List Name}
  {f : File} {conts : List UInt8} {r : HeapRegion} {m m' m'' : Mem} {bs : List Block} {p fuel : Nat}

/-! ### The executable -/

/-- A file of the tree, with what its entry takes in the image beside its contents. -/
theorem exists_elf (junk : Nat → Nat) (hr : Representable root)
    (hm : Mounted img fs (main junk root)) (hlen : (main junk root).length < 2 ^ 32)
    (hcs : ∀ n ∈ c :: cs, IsName n) (fp : CStr) (hfp : fp.chars = pathOf (c :: cs))
    (hfile : HasFile root (c :: cs) conts) :
    ∃ fs' f, checkCorrectness img fs = some (true, fs') ∧
      RivFs.open img fs' fp = some (some f) ∧ filesize img f = some conts.length ∧
        RivFs.read img f = some (conts ++ [0]) ∧ conts.length + 10 ≤ (main junk root).length := by
  obtain ⟨fs', b, hcheck, hopened⟩ := exists_opened junk hr hm hlen
  obtain ⟨r, hopen, ⟨rfl, hno⟩ | ⟨f, o, hf, hat, rfl⟩⟩ := open_spec hopened hcs hfp
  · exact absurd hfile (hno conts)
  · obtain rfl := hr.hasFile_unique hf hfile
    obtain ⟨hsize, hread⟩ := read_spec hopened.mounted hat
    refine ⟨fs', _, hcheck, hopen, hsize, hread, ?_⟩
    have hle := hat.le (by simp [FileEntry.genf, pushU32LE, toLE])
    rw [length_genf] at hle
    -- at the start of the image is the magic, in which no short name's length is
    obtain ⟨-, -, hhdr, -⟩ := main_stored hr hlen
    have hmagic₀ : At (main junk root) 0 (toLE 4 0x66766972) :=
      (at_append_iff.mp (show At (main junk root) 0 (toLE 4 0x66766972 ++ _) from hhdr)).1
    have hmagic₁ : At (main junk root) 1 (toLE 4 0x73667669) :=
      (at_append_iff.mp (at_append_iff.mp
        (show At (main junk root) 0 ([0x72] ++ (toLE 4 0x73667669 ++ _)) from hhdr)).2).1
    have hname : ∀ v < 2 ^ 32, At (main junk root) o (toLE 4 v) → f.name.length = v :=
      fun v hv hv' => Option.some.inj
        ((hopened.mounted.u32At (at_genf_iff.mp hat).1.1 (by omega)).symm.trans
          (hopened.mounted.u32At hv' hv))
    rcases o with _ | _ | o
    · have := hname _ (by decide) hmagic₀
      omega
    · have := hname _ (by decide) hmagic₁
      omega
    · omega

/-- **When the file stays in its buffer**: the block that first fit gives it is larger than the file,
or the byte behind the block is zero already, or the heap ends there. -/
theorem read_frame_iff (junk : Nat → Nat) (hr : Representable root)
    (hm : Mounted img fs (main junk root))
    (hbeside : fs.rawFsMemloc + (main junk root).length ≤ r.heapStart ∨ r.heapEnd ≤ fs.rawFsMemloc)
    (hcs : ∀ n ∈ c :: cs, IsName n) (fp : CStr) (hfp : fp.chars = pathOf (c :: cs))
    (hfile : HasFile root (c :: cs) conts) (hh : Heap r m bs)
    (ha : KernelAllocator.alloc r conts.length fuel m = some (some p, m')) :
    ∃ fs' f m'', checkCorrectness img fs = some (true, fs') ∧
      RivFs.open img fs' fp = some (some f) ∧ filesize img f = some conts.length ∧
        readInto img f p m' = some m'' ∧ p = (firstFit r conts.length bs).payload sizeof ∧
          ((∀ x, r.heapStart ≤ x → x < r.heapEnd →
              ¬ (firstFit r conts.length bs).InPayload sizeof x → m'' x = m' x) ↔
            conts.length < (firstFit r conts.length bs).size ∨
              m ((firstFit r conts.length bs).stop sizeof) = 0 ∨
                (firstFit r conts.length bs).stop sizeof = r.heapEnd) := by
  have himage := r.image
  have hsize := r.size
  have hmem := r.memory
  have hbase := hm.fits
  obtain ⟨fs', f, hcheck, hopen, hfsize, hread, hle⟩ :=
    exists_elf junk hr hm (by omega) hcs fp hfp hfile
  have hroom : Heap.RoomFor r conts.length bs := by
    have h9 : sizeof = 9 := rfl
    have hfits := hh.fits
    exact .inr (.inl (by omega))
  obtain ⟨hp, hn, hlo, hhi, hkept⟩ := alloc_firstFit hh (by omega) hroom ha
  refine ⟨fs', f, store m' p (conts ++ [0]), hcheck, hopen, hfsize, ?_, hp, ?_⟩
  · rw [readInto, hread]
    rfl
  · have hstop : (firstFit r conts.length bs).stop sizeof =
        p + (firstFit r conts.length bs).size := by
      rw [hp, Block.stop, Block.payload]
    have hframe := store_nul_frame_iff (m := m') hlo r.heapEnd hn
    rw [hkept _ (Nat.le_add_right ..)] at hframe
    rw [hstop] at hhi ⊢
    simp only [Block.InPayload, ← hp, hstop, hframe]
    have hend : r.heapEnd ≤ p + (firstFit r conts.length bs).size ↔
        p + (firstFit r conts.length bs).size = r.heapEnd := by omega
    rw [hend]

/-- A block that is filled: the low byte of the size of the block behind it is gone. -/
theorem size_after_read {b : Block} (hread : RivFs.read img f = some (conts ++ [0]))
    (hh : Heap r m bs) (hroom : Heap.RoomFor r conts.length bs) (hn : conts.length < 2 ^ 32)
    (ha : KernelAllocator.alloc r conts.length fuel m = some (some p, m'))
    (hfull : (firstFit r conts.length bs).size = conts.length) (hb : b ∈ bs)
    (hbehind : b.addr = (firstFit r conts.length bs).stop sizeof)
    (hinto : readInto img f p m' = some m'') :
    HeapBlock.size m'' b.addr = b.size / 256 * 256 := by
  obtain ⟨hp, -, -, -, hkept⟩ := alloc_firstFit hh hn hroom ha
  have haddr : b.addr = p + conts.length := by
    rw [hbehind, hp, Block.stop, Block.payload, hfull]
  obtain rfl : store m' p (conts ++ [0]) = m'' := by
    rw [readInto, hread] at hinto
    exact Option.some.inj hinto
  have hnul : store m' p (conts ++ [0]) b.addr = 0 := by rw [haddr, store_nul]
  have hrest : load (store m' p (conts ++ [0])) (b.addr + 1) 3 = load m (b.addr + 1) 3 := by
    refine load_congr fun x hx _ => ?_
    rw [store_of_not_mem (by simp only [List.length_append, List.length_singleton]; omega),
      hkept x (by omega)]
  have hsize := (hh.listed.header hb).1
  rw [HeapBlock.size, readLE, load, ofLE] at hsize ⊢
  have := (m b.addr).toNat_lt
  rw [hnul, hrest, UInt8.toNat_zero]
  omega

/-! ### A buffer of the right size -/

/-- After `init`, blocks of 2 and 5 bytes are allocated, and the first one is given back. -/
def reusedHeap : Mem :=
  let m := KernelAllocator.init smallImage fun _ => 0
  let m := ((KernelAllocator.alloc smallImage 2 1 m).map Prod.snd).getD m
  let m := ((KernelAllocator.alloc smallImage 5 2 m).map Prod.snd).getD m
  KernelAllocator.free 0x200012 m

theorem reusedHeap_heap : Heap smallImage reusedHeap
    [⟨0x200000, 0, true⟩, ⟨0x200009, 2, false⟩, ⟨0x200014, 5, true⟩] where
  listed := by
    refine ⟨by decide, rfl, ?_, ?_, ⟨?_, ?_, ?_, ?_, ⟨?_, ?_, ?_, ?_, ?last⟩⟩⟩
    case last => exact show HeapBlock.next reusedHeap _ = 0 by decide +kernel
    all_goals decide +kernel
  tiled := ⟨rfl, rfl, rfl, trivial⟩
  super := rfl
  fits := by decide

theorem alloc_reusedHeap : ∃ m', KernelAllocator.alloc smallImage 2 2 reusedHeap =
    some (some 0x200012, m') := ⟨_, rfl⟩

theorem reusedHeap_room : Heap.RoomFor smallImage 2
    [⟨0x200000, 0, true⟩, ⟨0x200009, 2, false⟩, ⟨0x200014, 5, true⟩] :=
  .inl ⟨⟨0x200009, 2, false⟩, by decide, by decide⟩

theorem hasFile_a : HasFile smallTree [[97]] [1, 2] :=
  .here (f := ⟨[97], [1, 2]⟩) List.mem_cons_self

theorem isName_a : ∀ n ∈ [[97]], IsName n := by
  rintro n (_ | ⟨_, ⟨⟩⟩)
  exact isName_single (by decide) (by decide)

theorem read_frame_reused : ∃ m' fs' f m'',
    KernelAllocator.alloc smallImage 2 2 reusedHeap = some (some 0x200012, m') ∧
      checkCorrectness (imageMem (main (fun _ => 0) smallTree)) ⟨0x100000, 101, 0⟩ =
        some (true, fs') ∧
      RivFs.open (imageMem (main (fun _ => 0) smallTree)) fs' (.lit ['/', 'a']) = some (some f) ∧
      readInto (imageMem (main (fun _ => 0) smallTree)) f 0x200012 m' = some m'' := by
  obtain ⟨m', ha⟩ := alloc_reusedHeap
  obtain ⟨fs', f, m'', hcheck, hopen, -, hinto, -⟩ := read_frame_iff (fun _ => 0)
    smallTree_representable smallTree_mounted (.inl (by rw [length_smallTree]; decide)) isName_a
    (.lit ['/', 'a']) rfl hasFile_a reusedHeap_heap ha
  exact ⟨m', fs', f, m'', ha, hcheck, hopen, hinto⟩

/-- `/a` has two bytes, and so has its block: the one behind it has no size any more. -/
theorem read_overwrites_header : ∃ m' fs' f m'',
    KernelAllocator.alloc smallImage 2 2 reusedHeap = some (some 0x200012, m') ∧
      RivFs.open (imageMem (main (fun _ => 0) smallTree)) fs' (.lit ['/', 'a']) = some (some f) ∧
      filesize (imageMem (main (fun _ => 0) smallTree)) f = some 2 ∧
      readInto (imageMem (main (fun _ => 0) smallTree)) f 0x200012 m' = some m'' ∧
      (¬ ∀ x, smallImage.heapStart ≤ x → x < smallImage.heapEnd →
        ¬ (0x200012 ≤ x ∧ x < 0x200012 + HeapBlock.size reusedHeap 0x200009) → m'' x = m' x) ∧
      HeapBlock.size m' 0x200014 = 5 ∧ HeapBlock.size m'' 0x200014 = 0 := by
  obtain ⟨m', ha⟩ := alloc_reusedHeap
  obtain ⟨fs', f, -, hopen, hsize, hread, -⟩ := exists_elf (fun _ => 0) smallTree_representable
    smallTree_mounted (by rw [length_smallTree]; decide) isName_a (.lit ['/', 'a']) rfl
    hasFile_a
  have hinto : readInto (imageMem (main (fun _ => 0) smallTree)) f 0x200012 m' =
      some (store m' 0x200012 [1, 2, 0]) := by
    rw [readInto, hread]
    rfl
  have hzero := size_after_read hread reusedHeap_heap reusedHeap_room (by decide) ha (by decide)
    (b := ⟨0x200014, 5, true⟩) (by decide) (by decide) hinto
  obtain ⟨-, -, -, -, hkept⟩ := alloc_firstFit reusedHeap_heap (by decide) reusedHeap_room ha
  have hheader : HeapBlock.size m' 0x200014 = 5 :=
    (HeapBlock.congr fun x hx _ => hkept x (by omega)).1.trans
      (reusedHeap_heap.listed.header (b := ⟨0x200014, 5, true⟩) (by decide)).1
  refine ⟨m', fs', f, _, ha, hopen, hsize, hinto, fun h => ?_, hheader, hzero⟩
  have hfull : HeapBlock.size reusedHeap 0x200009 = 2 := by decide +kernel
  have hnul : store m' 0x200012 [1, 2, 0] 0x200014 = 0 :=
    show store m' 0x200012 ([1, 2] ++ [0]) (0x200012 + [1, 2].length) = 0 from store_nul
  have hsame := h 0x200014 (by decide) (by decide) (by rw [hfull]; decide)
  rw [hkept 0x200014 (by decide), hnul] at hsame
  exact absurd hsame (by decide +kernel)

end RivFs
end RivOS
