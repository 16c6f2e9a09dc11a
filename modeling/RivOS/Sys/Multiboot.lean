import RivOS.Gen.Err
import RivOS.Lib.CString
import RivOS.Support.Bytes
import RivOS.Support.Loops
import RivOS.Sys.SysMod

/-!
# Sys — What the boot loader hands over

The tags at `mbiAddr`, which `Visuals::init` (`vis/vis.hpp`) and `InitRamFs::init`
(`initramfs/init.hpp`) walk until one is of the kind they look for.

* `Tag`, `bootInfo`: the tags, and the bytes that the boot loader writes for a list of them.
* `findTag_spec`: the walk ends at the first tag of its kind, or behind the last tag.
* `initVisuals_eq`: the screen is that of the first tag that has a framebuffer, and without one the
  kernel halts.
-/

namespace RivOS

namespace Multiboot

/-! ### The code -/

section Code

variable (mem : PMem)

/-- `(u8*) tag + ((size + 7) & ~7)`. -/
def nextTag (tag size : UInt32) : UInt32 := tag + ((size + 7) &&& ~~~7)

/-- `k` bytes of the tag, from an offset on. -/
def field (k : Nat) (tag off : UInt32) : Except Halt Nat :=
  orHalt .undefined (peekLE mem k (tag + off).toNat)

def tagTurn (kind : Nat) (tag : UInt32) : Except Halt (UInt32 ⊕ Option UInt32) := do
  let type ← field mem 4 tag 0
  if type = 0 then return .inr none
  else if type = kind then return .inr (some tag)
  else
    let size ← field mem 4 tag 4
    return .inl (nextTag tag (.ofNat size))

/-- A walk that is not over after `2 ^ 32` tags goes round. -/
def findTag (kind : Nat) (mbiAddr : UInt32) : Except Halt (Option UInt32) :=
  loop (tagTurn mem kind) .undefined (fun _ => 2 ^ 32) (mbiAddr + 8)

/-- `Visuals::init`, which halts where there is no framebuffer. -/
def initVisuals (mbiAddr : UInt32) : Except Halt (Option Visuals) := do
  match ← findTag mem 8 mbiAddr with
  | none => return none
  | some fb =>
      let fbPitch ← field mem 4 fb 16
      let fbWidth ← field mem 4 fb 20
      let fbHeight ← field mem 4 fb 24
      let _fbBpp ← field mem 1 fb 28
      let fbAddr ← field mem 8 fb 8
      return some
        { pixels := (UInt64.ofNat fbAddr).toUInt32
          fbPitch := .ofNat fbPitch
          fbWidth := .ofNat fbWidth
          fbHeight := .ofNat fbHeight
          fbAddr := .ofNat fbAddr }

end Code

/-! ### Tags -/

structure FramebufferTag where
  addr : UInt64
  pitch : UInt32
  width : UInt32
  height : UInt32
  bpp : UInt8
  typeAttr : UInt8

/-- A tag that stands for something. -/
inductive Tag where
  | framebuffer (fb : FramebufferTag) (colors : List UInt8)
  | module (modStart modEnd : UInt32) (cmdline : CStr)
  | other (type : Nat) (data : List UInt8) (h : type < 2 ^ 32 ∧ type ∉ [0, 3, 8])

namespace Tag

def type : Tag → Nat
  | framebuffer .. => 8
  | module .. => 3
  | other type .. => type

/-- What is behind the size. -/
def data : Tag → List UInt8
  | framebuffer fb colors => toLE 8 fb.addr.toNat ++ (toLE 4 fb.pitch.toNat ++
      (toLE 4 fb.width.toNat ++ (toLE 4 fb.height.toNat ++ fb.bpp :: fb.typeAttr :: colors)))
  | module modStart modEnd cmdline =>
      toLE 4 modStart.toNat ++ (toLE 4 modEnd.toNat ++ (cmdline.chars ++ [0]))
  | other _ data _ => data

def size (t : Tag) : Nat := 8 + t.data.length

/-- The tag, up to where the next one begins. -/
def bytes (t : Tag) : List UInt8 :=
  toLE 4 t.type ++ (toLE 4 t.size ++ (t.data ++ List.replicate ((t.size + 7) / 8 * 8 - t.size) 0))

def framebuffer? : Tag → Option FramebufferTag
  | framebuffer fb _ => some fb
  | _ => none

/-- Where the module starts and ends, and what it was given. -/
def module? : Tag → Option (UInt32 × UInt32 × CStr)
  | module modStart modEnd cmdline => some (modStart, modEnd, cmdline)
  | _ => none

end Tag

def endTag : List UInt8 := toLE 4 0 ++ toLE 4 8

def tagBytes (tags : List Tag) : List UInt8 := tags.flatMap Tag.bytes ++ endTag

/-- The information at `mbiAddr`: its size, a reserved number, and the tags. -/
def bootInfo (reserved : Nat) (tags : List Tag) : List UInt8 :=
  toLE 4 (8 + (tagBytes tags).length) ++ (toLE 4 reserved ++ tagBytes tags)

/-! ### The walk -/

variable {mem : PMem} {tag : UInt32} {t : Tag} {tags : List Tag} {kind n off k v : Nat}

theorem toNat_round (x : UInt32) : (x &&& ~~~7).toNat = x.toNat / 8 * 8 := by
  have hdiv : (x &&& ~~~7).toNat / 8 = x.toNat / 8 := by
    have hmask : ((~~~7 : BitVec 32) >>> 3).toNat = 2 ^ 29 - 1 := rfl
    have hshift : (x.toBitVec &&& ~~~7) >>> 3 = x.toBitVec >>> 3 := by
      rw [BitVec.ushiftRight_and_distrib, ← BitVec.toNat_inj, BitVec.toNat_and, hmask,
        Nat.and_two_pow_sub_one_eq_mod, BitVec.toNat_ushiftRight, Nat.shiftRight_eq_div_pow]
      omega
    have hnat := congrArg BitVec.toNat hshift
    rwa [BitVec.toNat_ushiftRight, BitVec.toNat_ushiftRight, Nat.shiftRight_eq_div_pow,
      Nat.shiftRight_eq_div_pow] at hnat
  have hmod : (x &&& ~~~7).toNat % 8 = 0 := by
    have hlow : (x.toBitVec &&& ~~~7) &&& 7 = 0 := by
      rw [BitVec.and_assoc]
      exact BitVec.and_zero
    have hnat := congrArg BitVec.toNat hlow
    rw [BitVec.toNat_and, show (7 : BitVec 32).toNat = 2 ^ 3 - 1 from rfl,
      Nat.and_two_pow_sub_one_eq_mod] at hnat
    exact hnat
  omega

theorem length_bytes (t : Tag) : t.bytes.length = (t.size + 7) / 8 * 8 := by
  have hsize : t.size = 8 + t.data.length := rfl
  simp only [Tag.bytes, List.length_append, length_toLE, List.length_replicate]
  omega

theorem type_lt (t : Tag) : t.type < 256 ^ 4 ∧ t.type ≠ 0 := by
  cases t with
  | framebuffer => exact (by decide : 8 < 256 ^ 4 ∧ 8 ≠ 0)
  | module => exact (by decide : 3 < 256 ^ 4 ∧ 3 ≠ 0)
  | other type data h => exact ⟨h.1, fun h0 => h.2 (by simp [show type = 0 from h0])⟩

theorem at_skip {pre bs rest : List UInt8} {off : Nat} (h : pre.length = off) :
    At (pre ++ (bs ++ rest)) off bs := by
  rw [At, ← h, List.drop_left]
  exact List.prefix_append bs rest

theorem at_zero {bs rest : List UInt8} : At (bs ++ rest) 0 bs := List.prefix_append bs rest

/-- What stands in bytes that are there is read. -/
theorem field_eq {bs : List UInt8} {off : UInt32} (h : Loaded mem tag.toNat bs)
    (hend : tag.toNat + bs.length ≤ 2 ^ 32) (ha : At bs off.toNat (toLE k v)) (hv : v < 256 ^ k)
    (hk : 0 < k) : field mem k tag off = .ok v := by
  have hle := ha.le (List.ne_nil_of_length_pos (by rwa [length_toLE]))
  rw [length_toLE] at hle
  have haddr : (tag + off).toNat = tag.toNat + off.toNat := by
    rw [UInt32.toNat_add]
    omega
  rw [field, haddr, h.peekLE ha hv]
  rfl

/-- One turn, at a tag that more is behind. -/
theorem tagTurn_tag {rest : List UInt8} (h : Loaded mem tag.toNat (t.bytes ++ rest))
    (hend : tag.toNat + (t.bytes ++ rest).length ≤ 2 ^ 32) (hrest : 8 ≤ rest.length) :
    tagTurn mem kind tag = if t.type = kind then .ok (.inr (some tag))
      else .ok (.inl (tag + .ofNat t.bytes.length)) := by
  have hlen := length_bytes t
  rw [List.length_append] at hend
  have hsize : t.size + 7 < 2 ^ 32 := by omega
  obtain ⟨hlt, hne⟩ := type_lt t
  have htype : field mem 4 tag 0 = .ok t.type := by
    refine field_eq h (by rwa [List.length_append]) ?_ hlt (by decide)
    rw [Tag.bytes, List.append_assoc]
    exact at_zero
  rw [tagTurn, htype, ok_bind, if_neg hne]
  split
  · rfl
  · have hfield : field mem 4 tag 4 = .ok t.size := by
      refine field_eq h (by rwa [List.length_append]) ?_ (by omega) (by decide)
      rw [Tag.bytes, List.append_assoc, List.append_assoc]
      exact at_skip (length_toLE 4 t.type)
    have hround : ((UInt32.ofNat t.size + 7) &&& ~~~7) = .ofNat t.bytes.length := by
      refine UInt32.toNat_inj.mp ?_
      rw [toNat_round, UInt32.toNat_add, UInt32.toNat_ofNat', UInt32.toNat_ofNat', hlen,
        show (7 : UInt32).toNat = 7 from rfl]
      omega
    rw [hfield, ok_bind, nextTag, hround]
    rfl

theorem tagTurn_end (h : Loaded mem tag.toNat endTag) (hend : tag.toNat + 8 ≤ 2 ^ 32) :
    tagTurn mem kind tag = .ok (.inr none) := by
  have htype : field mem 4 tag 0 = .ok 0 := field_eq h hend at_zero (by decide) (by decide)
  rw [tagTurn, htype]
  rfl

/-- The first tag of the kind, where it lies in memory. -/
def Found (mem : PMem) (kind : Nat) (tags : List Tag) (r : Option UInt32) : Prop :=
  (tags.find? (·.type = kind) = none ∧ r = none) ∨
    ∃ t a, tags.find? (·.type = kind) = some t ∧ r = some a ∧ Loaded mem a.toNat t.bytes ∧
      a.toNat + t.bytes.length ≤ 2 ^ 32

theorem turns_tags (h : Loaded mem tag.toNat (tagBytes tags))
    (hend : tag.toNat + (tagBytes tags).length ≤ 2 ^ 32) (hn : tags.length < n) :
    ∃ r, turns (tagTurn mem kind) .undefined n tag = .ok r ∧ Found mem kind tags r := by
  induction tags generalizing tag n with
  | nil =>
      obtain ⟨n, rfl⟩ : ∃ m, n = m + 1 := ⟨n - 1, by omega⟩
      refine ⟨none, ?_, .inl ⟨rfl, rfl⟩⟩
      rw [turns, tagTurn_end h hend]
      rfl
  | cons t tags ih =>
      obtain ⟨n, rfl⟩ : ∃ m, n = m + 1 := ⟨n - 1, by omega⟩
      have hbytes : tagBytes (t :: tags) = t.bytes ++ tagBytes tags := by
        rw [tagBytes, List.flatMap_cons, List.append_assoc]
        rfl
      have hrest : 8 ≤ (tagBytes tags).length := by
        rw [tagBytes, List.length_append]
        exact Nat.le_add_left ..
      rw [hbytes] at h hend
      rw [turns, tagTurn_tag h hend hrest]
      rw [List.length_append] at hend
      rw [List.length_cons] at hn
      by_cases ht : t.type = kind
      · rw [if_pos ht]
        refine ⟨some tag, rfl, .inr ⟨t, tag, List.find?_cons_of_pos (by simpa using ht), rfl, ?_, ?_⟩⟩
        · exact fun i b hb => h i b (by
            rw [List.getElem?_append_left (List.getElem?_eq_some_iff.mp hb).1, hb])
        · omega
      · have hnext : (tag + .ofNat t.bytes.length : UInt32).toNat = tag.toNat + t.bytes.length := by
          rw [UInt32.toNat_add, UInt32.toNat_ofNat']
          omega
        have hloaded : Loaded mem (tag + .ofNat t.bytes.length : UInt32).toNat (tagBytes tags) := by
          rw [hnext]
          exact h.at (at_end t.bytes (tagBytes tags))
        obtain ⟨r, hr, hfound⟩ := ih (n := n) hloaded (by rw [hnext]; omega) (by omega)
        rw [if_neg ht]
        refine ⟨r, hr, ?_⟩
        rwa [Found, List.find?_cons_of_neg (by simpa using ht)]

theorem length_tags_le (tags : List Tag) : tags.length ≤ (tagBytes tags).length := by
  rw [tagBytes, List.length_append]
  refine Nat.le_add_right_of_le ?_
  induction tags with
  | nil => exact Nat.le_refl 0
  | cons t tags ih =>
      have hsize : t.size = 8 + t.data.length := rfl
      rw [List.length_cons, List.flatMap_cons, List.length_append, length_bytes]
      omega

/-- **The walk** ends at the first tag of its kind, or behind the last tag. -/
theorem findTag_spec {mbiAddr : UInt32} {reserved : Nat} (kind : Nat)
    (h : Loaded mem mbiAddr.toNat (bootInfo reserved tags))
    (hend : mbiAddr.toNat + (bootInfo reserved tags).length ≤ 2 ^ 32) :
    ∃ r, findTag mem kind mbiAddr = .ok r ∧ Found mem kind tags r := by
  have hinfo : bootInfo reserved tags =
      (toLE 4 (8 + (tagBytes tags).length) ++ toLE 4 reserved) ++ tagBytes tags :=
    (List.append_assoc ..).symm
  have hlen : (bootInfo reserved tags).length = 8 + (tagBytes tags).length := by
    rw [hinfo, List.length_append, List.length_append, length_toLE, length_toLE]
  have htags : 8 ≤ (tagBytes tags).length := by
    rw [tagBytes, List.length_append]
    exact Nat.le_add_left ..
  have haddr : (mbiAddr + 8).toNat = mbiAddr.toNat + 8 := by
    rw [UInt32.toNat_add, show (8 : UInt32).toNat = 8 from rfl]
    omega
  have hloaded : Loaded mem (mbiAddr + 8).toNat (tagBytes tags) := by
    rw [haddr]
    rw [hinfo] at h
    exact h.at (at_end (toLE 4 (8 + (tagBytes tags).length) ++ toLE 4 reserved) (tagBytes tags))
  have hfuel : tags.length < 2 ^ 32 + 1 := by
    have hle := length_tags_le tags
    omega
  exact turns_tags hloaded (by omega) hfuel

/-! ### Kinds -/

/-- The first tag of a kind, and the first one that has what tags of the kind have. -/
theorem findSome?_kind {α : Type} {f : Tag → Option α} (hf : ∀ t, (f t).isSome ↔ t.type = kind)
    (tags : List Tag) : tags.findSome? f = (tags.find? (·.type = kind)).bind f := by
  induction tags with
  | nil => rfl
  | cons t tags ih =>
      by_cases ht : t.type = kind
      · rw [List.findSome?_cons_of_isSome ((hf t).mpr ht),
          List.find?_cons_of_pos (by simpa using ht), Option.bind_some]
      · have hnone : (f t).isNone := by
          rw [Option.isNone_iff_eq_none, ← Option.not_isSome_iff_eq_none, hf t]
          exact ht
        rw [List.findSome?_cons_of_isNone hnone, List.find?_cons_of_neg (by simpa using ht), ih]

theorem type_other {type : Nat} (h : type < 2 ^ 32 ∧ type ∉ [0, 3, 8]) : type ≠ 3 ∧ type ≠ 8 :=
  ⟨fun h3 => h.2 (by simp [h3]), fun h8 => h.2 (by simp [h8])⟩

theorem isSome_framebuffer? (t : Tag) : t.framebuffer?.isSome ↔ t.type = 8 := by
  cases t with
  | framebuffer => exact iff_of_true rfl rfl
  | module => exact iff_of_false nofun nofun
  | other type data h => exact iff_of_false nofun (type_other h).2

theorem isSome_module? (t : Tag) : t.module?.isSome ↔ t.type = 3 := by
  cases t with
  | framebuffer => exact iff_of_false nofun nofun
  | module => exact iff_of_true rfl rfl
  | other type data h => exact iff_of_false nofun (type_other h).1

theorem exists_framebuffer (h : t.type = 8) : ∃ fb colors, t = .framebuffer fb colors := by
  cases t with
  | framebuffer fb colors => exact ⟨fb, colors, rfl⟩
  | module => cases h
  | other type data ht => exact absurd h (type_other ht).2

theorem exists_module (h : t.type = 3) :
    ∃ modStart modEnd cmdline, t = .module modStart modEnd cmdline := by
  cases t with
  | framebuffer => cases h
  | module modStart modEnd cmdline => exact ⟨modStart, modEnd, cmdline, rfl⟩
  | other type data ht => exact absurd h (type_other ht).1

/-! ### The framebuffer -/

variable {mbiAddr : UInt32} {reserved : Nat}

/-- What `Visuals` keeps of the tag. -/
def FramebufferTag.visuals (fb : FramebufferTag) : Visuals where
  pixels := fb.addr.toUInt32
  fbPitch := fb.pitch
  fbWidth := fb.width
  fbHeight := fb.height
  fbAddr := fb.addr

/-- The fields of a tag are read. -/
theorem fields_framebuffer {fb : FramebufferTag} {colors : List UInt8}
    (h : Loaded mem tag.toNat (Tag.framebuffer fb colors).bytes)
    (hend : tag.toNat + (Tag.framebuffer fb colors).bytes.length ≤ 2 ^ 32) :
    field mem 8 tag 8 = .ok fb.addr.toNat ∧ field mem 4 tag 16 = .ok fb.pitch.toNat ∧
      field mem 4 tag 20 = .ok fb.width.toNat ∧ field mem 4 tag 24 = .ok fb.height.toNat ∧
        field mem 1 tag 28 = .ok fb.bpp.toNat := by
  have hall : At (Tag.framebuffer fb colors).bytes 0 (Tag.framebuffer fb colors).bytes :=
    List.prefix_refl _
  have hbpp : fb.bpp :: fb.typeAttr :: colors = toLE 1 fb.bpp.toNat ++ fb.typeAttr :: colors := by
    rw [toLE, UInt8.ofNat_toNat]
    rfl
  obtain ⟨-, hall⟩ := at_append_iff.mp hall
  obtain ⟨-, hall⟩ := at_append_iff.mp hall
  rw [Tag.data, hbpp, List.append_assoc] at hall
  obtain ⟨haddr, hall⟩ := at_append_iff.mp hall
  rw [List.append_assoc] at hall
  obtain ⟨hpitch, hall⟩ := at_append_iff.mp hall
  rw [List.append_assoc] at hall
  obtain ⟨hwidth, hall⟩ := at_append_iff.mp hall
  rw [List.append_assoc] at hall
  obtain ⟨hheight, hall⟩ := at_append_iff.mp hall
  rw [List.append_assoc] at hall
  obtain ⟨hb, -⟩ := at_append_iff.mp hall
  simp only [length_toLE, Nat.zero_add, Nat.reduceAdd] at haddr hpitch hwidth hheight hb
  exact ⟨field_eq h hend haddr fb.addr.toNat_lt (by decide),
    field_eq h hend hpitch fb.pitch.toNat_lt (by decide),
    field_eq h hend hwidth fb.width.toNat_lt (by decide),
    field_eq h hend hheight fb.height.toNat_lt (by decide),
    field_eq h hend hb fb.bpp.toNat_lt (by decide)⟩

/-- The first framebuffer there is. -/
theorem initVisuals_eq (h : Loaded mem mbiAddr.toNat (bootInfo reserved tags))
    (hend : mbiAddr.toNat + (bootInfo reserved tags).length ≤ 2 ^ 32) :
    initVisuals mem mbiAddr =
      .ok ((tags.findSome? Tag.framebuffer?).map FramebufferTag.visuals) := by
  obtain ⟨r, hr, hfound⟩ := findTag_spec 8 h hend
  rw [initVisuals, hr, ok_bind, findSome?_kind isSome_framebuffer?]
  rcases hfound with ⟨hnone, rfl⟩ | ⟨t, a, hsome, rfl, hloaded, hlast⟩
  · rw [hnone]
    rfl
  · obtain ⟨fb, colors, rfl⟩ := exists_framebuffer (by simpa using List.find?_some hsome)
    obtain ⟨haddr, hpitch, hwidth, hheight, hbpp⟩ := fields_framebuffer hloaded hlast
    simp only [hsome, haddr, hpitch, hwidth, hheight, hbpp, ok_bind]
    simp only [UInt32.ofNat_toNat, UInt64.ofNat_toNat]
    rfl

end Multiboot
end RivOS
