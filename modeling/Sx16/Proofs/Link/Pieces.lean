/-
# Sections joined by name

Sections of one name are joined: the bytes and the relocations of the second go behind those of the
first. Joining to different names can be done in either order, and if moving a joined section moves
its parts, then all sections can be moved first and joined afterwards.

Key definitions: `SectionData.join`, `attach`, `attachAll`.
Key theorems: `entryOf_attachAll`, `attachAll_map_attach`.
-/
import Sx16.Object.Module
import Sx16.Proofs.Upsert

namespace Sx16

/-- Two sections, one after the other, under the name of the first. -/
def SectionData.join (f g : SectionData) : SectionData where
  name := f.name
  bytes := f.bytes ++ g.bytes
  relocations := f.relocations ++ g.relocations

/-- The sections with one more: joined to the section of its name, or else at the end. -/
def attach (g : SectionData) (fs : List SectionData) : List SectionData :=
  upsert SectionData.name SectionData.join g fs

/-- The sections with more sections, one after the other. -/
def attachAll (fs gs : List SectionData) : List SectionData :=
  upsertAll SectionData.name SectionData.join fs gs

variable {f g : SectionData} {fs gs : List SectionData} {name : String}

@[simp] theorem SectionData.join_name (f g : SectionData) : (f.join g).name = f.name := rfl

theorem SectionData.join_assoc (f g h : SectionData) : (f.join g).join h = f.join (g.join h) := by
  unfold SectionData.join
  simp only [Array.append_assoc, List.append_assoc]

theorem SectionData.join_key (f g : SectionData) (h : f.name = g.name) :
    (f.join g).name = g.name := h

/-! ### One more section -/

theorem attach_cons_of_eq (fs : List SectionData) (h : f.name = g.name) :
    attach g (f :: fs) = f.join g :: fs := upsert_cons_of_eq fs h

theorem attach_cons_of_ne (fs : List SectionData) (h : f.name ≠ g.name) :
    attach g (f :: fs) = f :: attach g fs := upsert_cons_of_ne fs h

theorem mem_map_name_attach :
    name ∈ (attach g fs).map SectionData.name ↔ name ∈ fs.map SectionData.name ∨ name = g.name :=
  mem_map_key_upsert fun f => SectionData.join_key f g

theorem nodup_attach (hn : (fs.map SectionData.name).Nodup) :
    ((attach g fs).map SectionData.name).Nodup :=
  nodup_upsert (fun f => SectionData.join_key f g) hn

/-- Two sections of one name can be joined before. -/
theorem attach_join {h : SectionData} (hn : g.name = h.name) (fs : List SectionData) :
    attach (g.join h) fs = attach h (attach g fs) := by
  induction fs with
  | nil => exact (attach_cons_of_eq [] hn).symm
  | cons f fs ih =>
    by_cases hf : f.name = g.name
    · have hjoin : (f.join g).name = h.name := hf.trans hn
      rw [attach_cons_of_eq fs hf, attach_cons_of_eq fs hjoin, SectionData.join_assoc]
      exact attach_cons_of_eq fs hf
    · have hh : f.name ≠ h.name := fun hfh => hf (hfh.trans hn.symm)
      rw [attach_cons_of_ne fs hf, attach_cons_of_ne _ hh, ← ih]
      exact attach_cons_of_ne fs hf

/-- A section that joins one that is there can be joined before or behind another. -/
theorem attach_attach {h : SectionData} (hn : g.name ≠ h.name) (hg : g.name ∈ fs.map SectionData.name) :
    attach h (attach g fs) = attach g (attach h fs) := by
  induction fs with
  | nil => cases hg
  | cons f fs ih =>
    by_cases hf : f.name = g.name
    · have hh : f.name ≠ h.name := fun hfh => hn (hf.symm.trans hfh)
      rw [attach_cons_of_eq fs hf, attach_cons_of_ne fs hh, attach_cons_of_eq _ hf]
      exact attach_cons_of_ne fs hh
    · have hg' : g.name ∈ fs.map SectionData.name := by
        rcases List.mem_cons.mp hg with he | hg
        · exact absurd he.symm hf
        · exact hg
      rw [attach_cons_of_ne fs hf]
      by_cases hh : f.name = h.name
      · have hjoin : (f.join h).name ≠ g.name := hf
        rw [attach_cons_of_eq _ hh, attach_cons_of_eq fs hh, attach_cons_of_ne fs hjoin]
      · rw [attach_cons_of_ne _ hh, attach_cons_of_ne fs hh, attach_cons_of_ne _ hf, ih hg']

/-! ### More sections -/

theorem attachAll_cons (fs : List SectionData) (g : SectionData) (gs : List SectionData) :
    attachAll fs (g :: gs) = attachAll (attach g fs) gs := rfl

/-- **A name stands for both sections of that name**, joined. -/
theorem entryOf_attachAll (hn : (gs.map SectionData.name).Nodup) (name : String) :
    entryOf SectionData.name (attachAll fs gs) name =
      (entryOf SectionData.name fs name).merge SectionData.join (entryOf SectionData.name gs name) :=
  entryOf_upsertAll SectionData.join_key hn name

/-- A section that joins one that is there can be joined before or behind sections of other names. -/
theorem attachAll_attach (hg : g.name ∈ fs.map SectionData.name)
    (hgs : g.name ∉ gs.map SectionData.name) :
    attachAll (attach g fs) gs = attach g (attachAll fs gs) := by
  induction gs generalizing fs with
  | nil => rfl
  | cons h gs ih =>
    rw [List.map_cons, List.mem_cons, not_or] at hgs
    rw [attachAll_cons, attachAll_cons, attach_attach hgs.1 hg,
      ih (mem_map_name_attach.mpr (Or.inl hg)) hgs.2]

/-- **Sections that were joined and then moved**: if moving a joined section moves its parts, the
sections can be moved first and joined afterwards. -/
theorem attachAll_map_attach {mv : SectionData → SectionData} {g' : SectionData}
    (hmv : ∀ f, (mv f).name = f.name) (hg' : g'.name = g.name)
    (hn : (gs.map SectionData.name).Nodup)
    (hknown : ∀ f ∈ gs, f.name = g.name → mv (f.join g) = (mv f).join g')
    (hnew : g.name ∉ gs.map SectionData.name → mv g = g') :
    attachAll fs ((attach g gs).map mv) = attach g' (attachAll fs (gs.map mv)) := by
  induction gs generalizing fs with
  | nil =>
    change attach (mv g) fs = attach g' fs
    rw [hnew List.not_mem_nil]
  | cons f gs ih =>
    obtain ⟨hf, hgs⟩ := List.nodup_cons.mp hn
    by_cases hname : f.name = g.name
    · have hjoin : (mv f).name = g'.name := (hmv f).trans (hname.trans hg'.symm)
      rw [attach_cons_of_eq gs hname, List.map_cons, List.map_cons, attachAll_cons, attachAll_cons,
        hknown f List.mem_cons_self hname, attach_join hjoin, attachAll_attach]
      · exact mem_map_name_attach.mpr (Or.inr hjoin.symm)
      · rw [map_key_map hmv, hg', ← hname]
        exact hf
    · rw [attach_cons_of_ne gs hname, List.map_cons, List.map_cons, attachAll_cons, attachAll_cons]
      refine ih hgs (fun f' hf' => hknown f' (List.mem_cons_of_mem _ hf')) fun hnot => hnew ?_
      rw [List.map_cons, List.mem_cons, not_or]
      exact ⟨Ne.symm hname, hnot⟩

end Sx16
