import RivOS.Fs.Fat32Lookup

/-!
# Fs — How the separators of a FAT32 path are written

Separators are skipped by `isRootPath`, by `splitNextPathComponent` and by `resolvePath`, and what
the three leave of a path is its components.  The buffer for a component has room for 63
characters; a longer one ends the search however the path is written.

* `Respelled`: the same components between other separators.
* `open_respelled`: `open` does the same, on every disk and in every state of the heap, also where
  the search does not end.
-/

namespace RivOS.Fat32

open BootSector

/-- `/` and `\`, any number of them. -/
def Separators (s : List UInt8) : Prop := ∀ c ∈ s, isSep c = true

instance (s : List UInt8) : Decidable (Separators s) :=
  inferInstanceAs (Decidable (∀ c ∈ s, isSep c = true))

/-- Runs of separators replaced by others, and separators added or taken away at either end. -/
inductive Respelled : List UInt8 → List UInt8 → Prop where
  | run {seps seps' : List UInt8} (p q : List UInt8) (hne : seps ≠ []) (hne' : seps' ≠ [])
      (h : Separators seps) (h' : Separators seps') : Respelled (p ++ seps ++ q) (p ++ seps' ++ q)
  | leading {seps : List UInt8} (p : List UInt8) (h : Separators seps) : Respelled (seps ++ p) p
  | trailing {seps : List UInt8} (p : List UInt8) (h : Separators seps) : Respelled (p ++ seps) p
  | symm {p q : List UInt8} (h : Respelled p q) : Respelled q p
  | trans {p q r : List UInt8} (h : Respelled p q) (h' : Respelled q r) : Respelled p r

section Components

variable {p q seps : List UInt8} {a : UInt8}

theorem components_append_cons (p q : List UInt8) (ha : isSep a = true) :
    components (p ++ a :: q) = components p ++ components q := by
  rw [components, List.splitOnP_append_cons p q ha, List.filter_append]
  rfl

theorem components_separators (h : Separators seps) (p : List UInt8) :
    components (seps ++ p) = components p := by
  induction seps with
  | nil => rfl
  | cons a seps ih =>
      rw [List.cons_append, components_cons_sep (h a (by simp)), ih fun c hc => h c (.tail a hc)]

theorem components_run (hne : seps ≠ []) (h : Separators seps) (p q : List UInt8) :
    components (p ++ seps ++ q) = components p ++ components q := by
  obtain ⟨a, seps, rfl⟩ := List.exists_cons_of_ne_nil hne
  rw [List.append_assoc, List.cons_append, components_append_cons p _ (h a (by simp)),
    components_separators fun c hc => h c (.tail a hc)]

/-- What is left of a path when the separators are forgotten. -/
theorem Respelled.components_eq (h : Respelled p q) : components p = components q := by
  induction h with
  | run p q hne hne' h h' => rw [components_run hne h, components_run hne' h']
  | leading p h => exact components_separators h p
  | @trailing seps p h =>
      cases seps with
      | nil => rw [List.append_nil]
      | cons a seps =>
          have hend := components_run (by simp) h p []
          rwa [List.append_nil, show components [] = [] from rfl, List.append_nil] at hend
  | symm _ ih => exact ih.symm
  | trans _ _ ih ih' => exact ih.trans ih'

theorem isRootPath_iff : isRootPath p = true ↔ components p = [] := by
  rw [components_eq_nil_iff, isRootPath, decide_eq_true_eq]

end Components

/-! ### The two runs -/

section Open

variable {σ : Type} {find : Nat → List UInt8 → σ → Except Stuck (Option DirEntry × σ)}
  {p q : List UInt8}

/-- The loop of `resolvePath` sees the components only. -/
theorem resolveFrom_congr {comps : List (List UInt8)} (hp : components p = comps)
    (hq : components q = comps) (c : Nat) (s : σ) :
    resolveFrom find c p s = resolveFrom find c q s := by
  induction comps generalizing p q c s with
  | nil => rw [resolveFrom_nil hp, resolveFrom_nil hq]
  | cons comp comps ih =>
      obtain ⟨restp, hrestp, -, hnp⟩ := splitNext_cons hp
      obtain ⟨restq, hrestq, -, hnq⟩ := splitNext_cons hq
      have hfollow : follow (ρ := Except Stuck (Option DirEntry × σ)) .ok (resolveFrom find) restp =
          follow .ok (resolveFrom find) restq := by
        funext ⟨found, s⟩
        cases found with
        | none => rfl
        | some e =>
            simp only [follow, hrestp, hrestq]
            rw [ih (components_dropWhile.trans hrestp) (components_dropWhile.trans hrestq)]
      rw [resolveFrom_eq hnp, resolveFrom_eq hnq, hfollow]

variable {al : Allocator σ} {disk : Disk} {fuel : Nat} {fp fp' : CStr}

theorem resolvePath_eq_from (hroot : isRootPath p = false) (s : σ) :
    resolvePath al disk fuel p s =
      resolveFrom (findDirEntryInDir al disk fuel) (rootDirClusterNum disk) p s := by
  have hne : p ≠ [] := by
    rintro rfl
    cases hroot
  rw [resolvePath, resolveWith, if_neg hne]
  rfl

/-- **Other separators**: `open` returns the same file, so that it exists or does not, and is of the
same cluster, of the same size and a directory or none; or it does not return for either path. -/
theorem open_respelled (h : Respelled fp.chars fp'.chars) (flag : Bool) (s : σ) :
    «open» al disk fuel fp flag s = «open» al disk fuel fp' flag s := by
  have hcomps := h.components_eq
  have hroot : isRootPath fp.chars = isRootPath fp'.chars := by
    rw [Bool.eq_iff_iff, isRootPath_iff, isRootPath_iff, hcomps]
  cases hr : isRootPath fp'.chars with
  | true =>
      rw [hr] at hroot
      simp only [«open», hroot, hr, if_true]
  | false =>
      rw [hr] at hroot
      have hresolve : resolvePath al disk fuel fp.chars = resolvePath al disk fuel fp'.chars := by
        funext s
        rw [resolvePath_eq_from hroot, resolvePath_eq_from hr]
        exact resolveFrom_congr hcomps rfl _ s
      simp only [«open», hroot, hr, hresolve]

end Open

/-- `//bin\ls` and `bin/ls/`, on a disk of zeros. -/
theorem open_respelled_bin :
    «open» (KernelAllocator.buffers KernelAllocator.smallImage) (fun _ _ => 0) 1
        (.lit ['/', '/', 'b', 'i', 'n', '\\', 'l', 's']) false
        (KernelAllocator.init KernelAllocator.smallImage fun _ => 0) =
      «open» (KernelAllocator.buffers KernelAllocator.smallImage) (fun _ _ => 0) 1
        (.lit ['b', 'i', 'n', '/', 'l', 's', '/']) false
        (KernelAllocator.init KernelAllocator.smallImage fun _ => 0) := by
  have hslash : Separators [slash] := by simp [Separators, isSep, slash]
  have hslashes : Separators [slash, slash] := by simp [Separators, isSep, slash]
  have hback : Separators [backslash] := by simp [Separators, isSep, backslash]
  have hlead : Respelled (ascii ['/', '/', 'b', 'i', 'n', '\\', 'l', 's'])
      (ascii ['b', 'i', 'n', '\\', 'l', 's']) := .leading _ hslashes
  have hrun : Respelled (ascii ['b', 'i', 'n', '\\', 'l', 's'])
      (ascii ['b', 'i', 'n', '/', 'l', 's']) :=
    .run (ascii ['b', 'i', 'n']) (ascii ['l', 's']) (by decide) (by decide) hback hslash
  have htrail : Respelled (ascii ['b', 'i', 'n', '/', 'l', 's', '/'])
      (ascii ['b', 'i', 'n', '/', 'l', 's']) :=
    .trailing (ascii ['b', 'i', 'n', '/', 'l', 's']) hslash
  exact open_respelled ((hlead.trans hrun).trans htrail.symm) false _

end RivOS.Fat32
