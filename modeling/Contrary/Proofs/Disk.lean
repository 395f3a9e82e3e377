import Contrary.Disk
import Mathlib.Tactic.SplitIfs

/-!
# What writing does to a disk

A path that can be opened for writing leads to one location (`Disk.output`), which is no folder.
A write puts a file there, with the whole text or with the part that there is room for, and
leaves every other node as it is.

**Walks.**  A path passes through folders only, and writing neither makes nor removes a folder.
So a path leads to the same location before and after a write, and the text is read back from it.

**Results.**
* `Disk.node?_put`: the nodes after a file was put.
* `Disk.read_put`: what was put is read back.
* `Disk.write_of_fitting`, `Disk.write_of_overflow`, `Disk.write_of_fault`: the outcomes of a write.
-/

namespace Contrary
namespace Disk

variable {d : Disk} {l : Location} {path : Bytes}

section Nodes

theorem node?_eq_folder_iff :
    d.node? l = some .folder ↔ d.isFolder l = true := by
  unfold node?
  split_ifs with hl
  · simp [hl]
  · simp [hl]

/-- Putting a file neither makes nor removes a folder. -/
theorem isFolder_put
    (d : Disk) (l : Location) (contents : Bytes) (x : Location) :
    (d.put l contents).isFolder x = d.isFolder x :=
  rfl

theorem lookup_filter_of_ne
    {x : Location}
    (h : x ≠ l) (files : List (Location × Bytes)) :
    (files.filter fun file => file.1 != l).lookup x = files.lookup x := by
  induction files with
  | nil => rfl
  | cons file files ih =>
      obtain ⟨y, contents⟩ := file
      by_cases hy : y = l
      · have hx : (x == y) = false := beq_eq_false_iff_ne.mpr (hy ▸ h)
        rw [List.filter_cons_of_neg (by simp [hy]), ih, List.lookup_cons, hx]
      · rw [List.filter_cons_of_pos (by simp [hy]), List.lookup_cons, List.lookup_cons, ih]

/-- A file that is put stands at its location, and no other node changes. -/
theorem node?_put
    (h : d.isFolder l = false) (contents : Bytes) (x : Location) :
    (d.put l contents).node? x = if x = l then some (.file contents) else d.node? x := by
  unfold node?
  rw [isFolder_put]
  by_cases hx : x = l
  · rw [hx, h, if_pos rfl, put, List.lookup_cons_self]
    rfl
  · have hbeq : (x == l) = false := beq_eq_false_iff_ne.mpr hx
    rw [if_neg hx, put, List.lookup_cons, hbeq]
    simp only [lookup_filter_of_ne hx]

end Nodes

section Paths

theorem enter_put
    {site next : Location} {part : Bytes}
    (h : d.enter site part = .ok next) (l : Location) (contents : Bytes) :
    (d.put l contents).enter site part = .ok next := by
  unfold enter lookup at h ⊢
  split_ifs at h ⊢ with hhere hup hlong
  · exact h
  · exact h
  · -- the node at the part is a folder, which it stays
    cases hnode : d.node? (site ++ [part]) with
    | none =>
        rw [hnode] at h
        cases h
    | some node =>
        rw [hnode] at h
        cases node with
        | file _ => cases h
        | folder =>
            have hfolder : (d.put l contents).node? (site ++ [part]) = some .folder := by
              rw [node?_eq_folder_iff, isFolder_put, ← node?_eq_folder_iff, hnode]
            rw [hfolder]
            exact h

theorem walk_put
    {slashed : Bool} {site : Location} {parts : List Bytes} {entry : Entry}
    (h : d.walk slashed site parts = .ok entry) (l : Location) (contents : Bytes) :
    (d.put l contents).walk slashed site parts = .ok entry := by
  induction parts generalizing site with
  | nil => exact h
  | cons part parts ih =>
      cases parts with
      | nil => exact h
      | cons next parts =>
          unfold walk at h ⊢
          cases henter : d.enter site part with
          | error fault =>
              rw [henter] at h
              cases h
          | ok site' =>
              rw [henter] at h
              rw [enter_put henter]
              exact ih h

/-- A path that leads somewhere leads there after a file was put. -/
theorem locate_put
    {entry : Entry}
    (h : d.locate path = .ok entry) (l : Location) (contents : Bytes) :
    (d.put l contents).locate path = .ok entry := by
  unfold locate at h ⊢
  dsimp only at h ⊢
  split_ifs at h ⊢
  all_goals exact walk_put h l contents

/-- The location that is opened is that of a short name, and no folder stands there. -/
theorem exists_name_of_output
    (h : d.output path = .ok l) :
    ∃ site name, d.locate path = .ok (.named site name false) ∧ name.length ≤ nameLimit ∧
      l = site ++ [name] ∧ d.isFolder l = false := by
  unfold output lookup at h
  cases hlocate : d.locate path with
  | error fault =>
      rw [hlocate] at h
      cases h
  | ok entry =>
      rw [hlocate] at h
      cases entry with
      | directory => cases h
      | named site name slashed =>
          dsimp only at h
          split_ifs at h with hslashed hlong
          have hnode : d.node? (site ++ [name]) ≠ some .folder := by
            intro hnode
            rw [hnode] at h
            cases h
          have hl : l = site ++ [name] := by
            split at h
            all_goals cases h
            rfl
          refine ⟨site, name, ?_, Nat.not_lt.mp hlong, hl, ?_⟩
          · rw [Bool.eq_false_iff.mpr hslashed]
          · rw [hl]
            exact Bool.eq_false_iff.mpr fun hfolder => hnode (node?_eq_folder_iff.mpr hfolder)

theorem isFolder_of_output
    (h : d.output path = .ok l) :
    d.isFolder l = false := by
  obtain ⟨-, -, -, -, -, hfolder⟩ := exists_name_of_output h
  exact hfolder

/-- What was put at the location of a path is read back from the path. -/
theorem read_put
    (h : d.output path = .ok l) (contents : Bytes) :
    (d.put l contents).read path = .ok contents := by
  obtain ⟨site, name, hlocate, hlength, rfl, hfolder⟩ := exists_name_of_output h
  have hlookup : (d.put (site ++ [name]) contents).lookup site name =
      .ok (some (.file contents)) := by
    rw [lookup, if_neg (Nat.not_lt.mpr hlength), node?_put hfolder, if_pos rfl]
  rw [read, locate_put hlocate]
  simp only [hlookup]
  rfl

end Paths

section Writing

variable {contents : Bytes}

/-- A file that can be opened and has room for the text holds the text. -/
theorem write_of_fitting
    (h : d.output path = .ok l)
    (hfits : d.fitting l contents = contents) :
    d.write path contents = (.ok (), d.put l contents) := by
  unfold write
  rw [h]
  dsimp only
  rw [if_pos hfits, hfits]

/-- A file that can be opened and has no room for the text is left with a part of it. -/
theorem write_of_overflow
    (h : d.output path = .ok l)
    (hfits : d.fitting l contents ≠ contents) :
    d.write path contents =
      (.error ⟨.writing, path, .noSpace⟩, d.put l (d.fitting l contents)) := by
  unfold write
  rw [h]
  dsimp only
  rw [if_neg hfits]

/-- A file that cannot be opened is left as it is. -/
theorem write_of_fault
    {fault : FileFault}
    (h : d.output path = .error fault) :
    d.write path contents = (.error ⟨.opening, path, fault⟩, d) := by
  unfold write
  rw [h]

end Writing

end Disk
end Contrary
