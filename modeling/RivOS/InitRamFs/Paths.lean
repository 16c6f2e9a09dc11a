import Mathlib.Data.List.GetD
import Mathlib.Data.List.Nodup
import RivOS.InitRamFs.Image
import RivOS.InitRamFs.RivFs

/-!
# InitRamFs — Paths

The paths `/c₁/…/cₖ` as character lists, what they name in a tree (`HasFile`, `HasDir`), and how the
reader takes them apart: the name in front (`strlenSpecChar_names`), the first slash
(`findChar_names`) and the list of names (`fileParts_names`).
-/

namespace RivOS

variable {c : Name} {cs : List Name} {d s : DirNode} {conts : List UInt8}

/-- `/c₁/…/cₖ`. -/
def pathOf (cs : List Name) : List UInt8 := cs.flatMap fun c => slash :: c

/-! ### What a path names -/

inductive HasFile : DirNode → List Name → List UInt8 → Prop where
  | here {d : DirNode} {f : FileNode} (h : f ∈ d.files) : HasFile d [f.name] f.conts
  | sub {d s : DirNode} {cs : List Name} {conts : List UInt8} (h : s ∈ d.subdirs)
      (hs : HasFile s cs conts) : HasFile d (s.name :: cs) conts

inductive HasDir : DirNode → List Name → DirNode → Prop where
  | here {d : DirNode} : HasDir d [] d
  | sub {d s t : DirNode} {cs : List Name} (h : s ∈ d.subdirs) (hs : HasDir s cs t) :
      HasDir d (s.name :: cs) t

theorem not_hasFile_nil : ¬ HasFile d [] conts := nofun

theorem hasFile_single_iff :
    HasFile d [c] conts ↔ ∃ f ∈ d.files, f.name = c ∧ f.conts = conts := by
  constructor
  · rintro (⟨h⟩ | ⟨_, hs⟩)
    · exact ⟨_, h, rfl, rfl⟩
    · exact absurd hs not_hasFile_nil
  · rintro ⟨f, h, rfl, rfl⟩
    exact .here h

theorem hasFile_cons_iff {c' : Name} :
    HasFile d (c :: c' :: cs) conts ↔ ∃ s ∈ d.subdirs, s.name = c ∧ HasFile s (c' :: cs) conts := by
  constructor
  · rintro (_ | ⟨h, hs⟩)
    exact ⟨_, h, rfl, hs⟩
  · rintro ⟨s, h, rfl, hs⟩
    exact .sub h hs

theorem hasDir_cons_iff {t : DirNode} :
    HasDir d (c :: cs) t ↔ ∃ s ∈ d.subdirs, s.name = c ∧ HasDir s cs t := by
  constructor
  · rintro (_ | ⟨h, hs⟩)
    exact ⟨_, h, rfl, hs⟩
  · rintro ⟨s, h, rfl, hs⟩
    exact .sub h hs

/-! ### Distinct names -/

theorem Representable.sub (h : Representable d) (hs : s ∈ d.subdirs) : Representable s := by
  obtain ⟨-, -, -, -, -, hsub⟩ := h
  exact hsub s hs

theorem Representable.file_eq (h : Representable d) {f g : FileNode} (hf : f ∈ d.files)
    (hg : g ∈ d.files) (e : f.name = g.name) : f = g := by
  obtain ⟨-, -, hd, -, -, -⟩ := h
  exact List.inj_on_of_nodup_map (List.Nodup.of_append_left hd) hf hg e

theorem Representable.dir_eq (h : Representable d) {t : DirNode} (hs : s ∈ d.subdirs)
    (ht : t ∈ d.subdirs) (e : s.name = t.name) : s = t := by
  obtain ⟨-, -, hd, -, -, -⟩ := h
  exact List.inj_on_of_nodup_map (List.Nodup.of_append_right hd) hs ht e

theorem Listable.sub (h : Listable d) (hs : s ∈ d.subdirs) : Listable s := by
  obtain ⟨-, -, -, hsub⟩ := h
  exact hsub s hs

theorem Listable.dir_eq (h : Listable d) {t : DirNode} (hs : s ∈ d.subdirs)
    (ht : t ∈ d.subdirs) (e : s.name = t.name) : s = t := by
  obtain ⟨-, -, hd, -⟩ := h
  exact List.inj_on_of_nodup_map (List.Nodup.of_append_right hd) hs ht e

theorem Representable.listable (h : Representable d) : Listable d := by
  induction h with
  | mk hf hd hdist _ _ _ ih => exact .mk hf hd hdist ih

/-- A path names at most one file. -/
theorem Representable.hasFile_unique (h : Representable d) {conts' : List UInt8}
    (hf : HasFile d cs conts) (hf' : HasFile d cs conts') : conts = conts' := by
  induction hf with
  | @here d f hf =>
      obtain ⟨g, hg, hn, rfl⟩ := hasFile_single_iff.mp hf'
      rw [h.file_eq hf hg hn.symm]
  | @sub d s cs conts hs hf ih =>
      cases cs with
      | nil => exact absurd hf not_hasFile_nil
      | cons c' cs =>
          obtain ⟨t, ht, hn, hf'⟩ := hasFile_cons_iff.mp hf'
          obtain rfl := h.dir_eq hs ht hn.symm
          exact ih (h.sub hs) hf'

theorem Representable.hasDir_unique (h : Representable d) {t t' : DirNode}
    (hd : HasDir d cs t) (hd' : HasDir d cs t') : t = t' := by
  induction hd with
  | here => cases hd'; rfl
  | @sub d s t cs hs _ ih =>
      obtain ⟨u, hu, hn, hd'⟩ := hasDir_cons_iff.mp hd'
      obtain rfl := h.dir_eq hs hu hn.symm
      exact ih (h.sub hs) hd'

/-! ### Taking a path apart -/

theorem pathOf_cons : pathOf (c :: cs) = slash :: (c ++ pathOf cs) := by
  simp [pathOf]

theorem strlenSpecChar_append {l r : List UInt8} (h : slash ∉ l) :
    strlenSpecChar (l ++ r) slash = l.length + strlenSpecChar r slash := by
  induction l with
  | nil => simp
  | cons a l ih =>
      obtain ⟨ha, hl⟩ := List.ne_and_not_mem_of_not_mem_cons h
      rw [List.cons_append, strlenSpecChar, if_neg (Ne.symm ha), ih hl, List.length_cons]
      omega

/-- The name in front ends at the next slash, or with the path. -/
theorem strlenSpecChar_names (h : IsName c) :
    strlenSpecChar (c ++ pathOf cs) slash = c.length := by
  rw [strlenSpecChar_append h.slash]
  cases cs with
  | nil => rfl
  | cons c' cs => simp [pathOf_cons, strlenSpecChar]

theorem findIdx_slash (hc : slash ∉ c) : c.findIdx? (fun x => decide (x = slash)) = none := by
  rw [List.findIdx?_eq_none_iff]
  exact fun x hx => decide_eq_false fun e => hc (e ▸ hx)

theorem findChar_of_not_mem (hc : slash ∉ c) : findChar c slash = 0 := by
  rw [findChar, findIdx_slash hc, Option.getD_none]

theorem findChar_append (hc : slash ∉ c) (r : List UInt8) :
    findChar (c ++ slash :: r) slash = c.length := by
  rw [findChar, List.findIdx?_append, findIdx_slash hc]
  simp [List.findIdx?_cons]

/-- `findChar` finds the end of the name in front if more follow, and nothing otherwise. -/
theorem findChar_names (h : IsName c) (cs : List Name) :
    findChar (c ++ pathOf cs) slash = if cs = [] then 0 else c.length := by
  cases cs with
  | nil =>
      rw [if_pos rfl, pathOf, List.flatMap_nil, List.append_nil]
      exact findChar_of_not_mem h.slash
  | cons c' cs =>
      rw [if_neg (List.cons_ne_nil c' cs), pathOf_cons]
      exact findChar_append h.slash _

theorem drop_names : (c ++ pathOf cs).drop (c.length + 1) = (pathOf cs).tail := by
  rw [← List.drop_drop, List.drop_left, List.drop_one]

/-- The part in front, when it ends at a slash or with the path. -/
theorem fileParts_append {r : List UInt8} (hne : c ≠ []) (hc : slash ∉ c)
    (hr : strlenSpecChar r slash = 0) :
    RivFs.fileParts (c ++ r) = ⟨c, charAt r 0 == slash⟩ :: RivFs.fileParts r.tail := by
  obtain ⟨x, xs, hx⟩ := List.exists_cons_of_ne_nil hne
  have hlen : c.length ≠ 0 := by simp [hx]
  have hdrop : (xs ++ r).drop c.length = r.tail := by
    have hd : (c ++ r).drop (c.length + 1) = r.tail := by
      rw [← List.drop_drop, List.drop_left, List.drop_one]
    rw [← hd, hx]
    rfl
  have hunfold : c ++ r = x :: (xs ++ r) := by rw [hx]; rfl
  have hchar : charAt (c ++ r) c.length = charAt r 0 := by
    rw [charAt, charAt, List.getD_append_right _ _ _ _ (Nat.le_refl _), Nat.sub_self]
  rw [hunfold, RivFs.fileParts, ← hunfold, strlenSpecChar_append hc, hr, Nat.add_zero]
  simp only [hlen, if_false, List.take_left, hchar, hdrop]

theorem fileParts_names (h : IsName c) :
    RivFs.fileParts (c ++ pathOf cs) =
      ⟨c, !cs.isEmpty⟩ :: RivFs.fileParts (pathOf cs).tail := by
  cases cs with
  | nil => exact fileParts_append h.ne_nil h.slash rfl
  | cons c' cs =>
      rw [pathOf_cons]
      exact fileParts_append h.ne_nil h.slash rfl

end RivOS
