import CatalogDdl.Files.Path
import CatalogDdl.Proofs.Text.Line
import Mathlib.Data.List.TakeWhile

/-!
# The steps of a path

The steps of paths with a slash between them follow each other. The path of a name as seen from a
folder has the steps that lead to the folder, whatever the name is, and then the name.
-/
namespace CatalogDdl.Path

variable {base path name step tidied : String}

def Unslashed (s : String) : Prop := '/' ∉ s.toList

instance : DecidablePred Unslashed := fun s => inferInstanceAs (Decidable ('/' ∉ s.toList))

theorem unslashed_of_mem_steps (h : step ∈ steps path) : Unslashed step := by
  obtain ⟨piece, hp, rfl⟩ := List.mem_map.mp h
  simpa [Unslashed] using Text.not_mem_of_mem_splitOn hp

theorem steps_append_slash (base path : String) :
    steps (base ++ "/" ++ path) = steps base ++ steps path := by
  simp [steps, List.splitOn_append_cons_self]

theorem steps_of_unslashed (h : Unslashed name) : steps name = [name] := by
  simp [steps, List.splitOn_eq_singleton h]

theorem isAbsolute_of_unslashed (h : Unslashed name) : isAbsolute name = false := by
  simp only [isAbsolute, decide_eq_false_iff_not]
  exact fun hn => h (List.mem_of_mem_head? hn)

theorem steps_intercalate {parts : List String} (h : ∀ part ∈ parts, Unslashed part)
    (hn : parts ≠ []) :
    steps ("/".intercalate parts) = parts := by
  induction parts with
  | nil => exact absurd rfl hn
  | cons part rest ih =>
    rw [List.forall_mem_cons] at h
    cases rest with
    | nil => rw [String.intercalate_singleton, steps_of_unslashed h.1]
    | cons next rest =>
      rw [String.intercalate_cons_cons, steps_append_slash, steps_of_unslashed h.1,
        ih h.2 (by simp)]
      rfl

/-- The steps that lead to the folder `base`. A slash at its end makes no step. -/
def into (base : String) : List String :=
  if base = "" then []
  else if base.toList.getLast? = some '/' then (steps base).dropLast
  else steps base

/-- A file in a folder is one step behind the steps to the folder. -/
theorem steps_join (base : String) (h : Unslashed name) :
    steps (join base name) = into base ++ [name] := by
  simp only [join, isAbsolute_of_unslashed h, Bool.false_or, decide_eq_true_eq, into]
  split
  · rw [steps_of_unslashed h, List.nil_append]
  · split
    · rename_i hl
      obtain ⟨front, hf⟩ := List.getLast?_eq_some_iff.mp hl
      obtain rfl : base = String.ofList front ++ "/" := String.toList_injective (by simp [hf])
      have hd := steps_append_slash (String.ofList front) ""
      rw [String.append_empty] at hd
      rw [steps_append_slash, hd, steps_of_unslashed h]
      simp [steps]
    · rw [steps_append_slash, steps_of_unslashed h]

theorem isAbsolute_join (base : String) (h : Unslashed name) :
    isAbsolute (join base name) = isAbsolute base := by
  have ha := isAbsolute_of_unslashed h
  simp only [join, ha, Bool.false_or, decide_eq_true_eq]
  split
  · subst base
    rw [ha]
    rfl
  · rename_i hb
    obtain ⟨c, rest, hc⟩ := List.exists_cons_of_ne_nil (mt String.toList_eq_nil_iff.mp hb)
    split <;> simp [isAbsolute, hc]

theorem exists_trimIdle (steps : List String) : ∃ idle, steps = trimIdle steps ++ idle := by
  refine ⟨(steps.reverse.takeWhile isIdle).reverse, ?_⟩
  rw [trimIdle, ← List.reverse_append, List.takeWhile_append_dropWhile, List.reverse_reverse]

theorem trimIdle_concat (steps : List String) (h : isIdle name = false) :
    trimIdle (steps ++ [name]) = steps ++ [name] := by
  simp [trimIdle, h]

theorem above_join (base : String) (h : Unslashed name) (hi : isIdle name = false) :
    above (join base name) = trimIdle (into base) := by
  rw [above, steps_join base h, trimIdle_concat _ hi, List.dropLast_concat]

end CatalogDdl.Path
