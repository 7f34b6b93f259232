import CatalogDdl.Proofs.Catalog.Redefined
import CatalogDdl.Proofs.Schema.Group

/-!
# The last definition of a routine holds

Definitions change what is listed under their kind in two ways. The first routine of a defined name
gets the last definition of that name, and names that were not listed are added. The other routines
stay as they are, so it makes no difference to define the same routines once more.
-/
namespace CatalogDdl

namespace Routine

/-- What a definition leaves as it is of a listed routine. -/
def label (routine : Routine) : Routine.Kind × String := (routine.kind, routine.name)

/-- The definition of the first routine of that name. -/
def definition? (name : String) (routines : List Routine) : Option String :=
  (routines.find? fun routine => routine.name = name).map (·.definition)

@[simp] theorem definition?_nil (name : String) : definition? name [] = none := rfl

theorem definition?_cons (name : String) (first : Routine) (rest : List Routine) :
    definition? name (first :: rest) =
    if first.name = name then some first.definition else definition? name rest := by
  rw [definition?, List.find?_cons]
  by_cases h : first.name = name <;> simp [h, definition?]

theorem definition?_append (name : String) (routines others : List Routine) :
    definition? name (routines ++ others) =
      (definition? name routines).or (definition? name others) := by
  simp [definition?, List.find?_append, Option.map_or]

def defineAll (routines definitions : List Routine) : List Routine :=
  definitions.foldl (fun routines new => new.define routines) routines

@[simp] theorem defineAll_nil (routines : List Routine) : defineAll routines [] = routines := rfl

@[simp] theorem defineAll_cons (routines : List Routine) (new : Routine) (rest : List Routine) :
    defineAll routines (new :: rest) = defineAll (new.define routines) rest := rfl

variable {routine : Routine} {routines : List Routine}

/-- A definition changes no kind and no name, and adds a routine only if its name is not listed. -/
theorem map_label_define (new : Routine) (routines : List Routine) :
    (new.define routines).map label = routines.map label ++
      (if new.name ∈ routines.map (·.name) then [] else [new.name]).map (new.kind, ·) := by
  induction routines with
  | nil => rfl
  | cons old rest ih =>
    rw [define]
    by_cases hn : old.name = new.name
    · simp [hn, label]
    · simp [hn, Ne.symm hn, ih]

theorem map_name_of_map_label {kind : Routine.Kind} {added : List String} {others : List Routine}
    (h : others.map label = routines.map label ++ added.map (kind, ·)) :
    others.map (·.name) = routines.map (·.name) ++ added := by
  simpa [Function.comp_def, label] using congrArg (List.map Prod.snd) h

/-- Of its name the new definition is the first one now, and other names keep theirs. -/
theorem definition?_define (new : Routine) (name : String) (routines : List Routine) :
    definition? name (new.define routines) =
      if new.name = name then some new.definition else definition? name routines := by
  induction routines with
  | nil => exact definition?_cons name new []
  | cons old rest ih =>
    rw [define, definition?_cons]
    by_cases ho : old.name = new.name
    · rw [if_pos ho, definition?_cons, ho]
      split <;> rfl
    · rw [if_neg ho, definition?_cons, ih]
      by_cases hn : old.name = name
      · rw [if_pos hn, if_pos hn, if_neg fun he => ho (hn.trans he.symm)]
      · rw [if_neg hn, if_neg hn]

/-- A routine stays as it is under a definition of another name, and behind a routine of its own
name. -/
theorem getElem?_define {new : Routine} {i : Nat} (hr : routines[i]? = some routine)
    (h : routine.name ≠ new.name ∨ routine.name ∈ (routines.take i).map (·.name)) :
    (new.define routines)[i]? = some routine := by
  induction routines generalizing i with
  | nil => cases hr
  | cons old rest ih =>
    rw [define]
    cases i with
    | zero =>
      cases hr
      simp_all
    | succ i =>
      by_cases hn : old.name = new.name
      · rw [if_pos hn]
        exact hr
      · rw [if_neg hn]
        refine ih hr ?_
        rw [List.take_succ_cons, List.map_cons, List.mem_cons] at h
        rcases h with h | h | h
        · exact .inl h
        · exact .inl (h ▸ hn)
        · exact .inr h

variable {kind : Routine.Kind} {definitions old new : List Routine}

/-- What definitions of one kind make of a list of routines: `new` of `old`. -/
structure DefinedBy (kind : Routine.Kind) (definitions old new : List Routine) : Prop where
  /-- The routines stay in their places. Behind them stands each name that was not listed, in the
  order in which these names are first defined. -/
  labels : ∃ added, FirstSeen ((definitions.map (·.name)).filter (· ∉ old.map (·.name))) added ∧
    new.map label = old.map label ++ added.map (kind, ·)
  /-- The last definition of a name, which is the first one from the end, is what its first routine
  has. -/
  last : ∀ name, definition? name new =
    (definition? name definitions.reverse).or (definition? name old)
  /-- The routines of other names stay as they are, and so do the later ones of a name. -/
  others : ∀ i routine, old[i]? = some routine →
    routine.name ∉ definitions.map (·.name) ∨ routine.name ∈ (old.take i).map (·.name) →
    new[i]? = some routine

/-- A name is among those not listed when it occurs first, and is listed from then on. -/
theorem firstSeen_unlisted {name : String} {rest listed added : List String}
    (h : FirstSeen (rest.filter (· ∉ listed ++ if name ∈ listed then [] else [name])) added) :
    FirstSeen ((name :: rest).filter (· ∉ listed))
      ((if name ∈ listed then [] else [name]) ++ added) := by
  by_cases hn : name ∈ listed
  · rw [if_pos hn, List.append_nil] at h
    rw [if_pos hn, List.nil_append, List.filter_cons_of_neg (by simpa using hn)]
    exact h
  · rw [if_neg hn] at h
    rw [if_neg hn, List.singleton_append, List.filter_cons_of_pos (by simpa using hn)]
    refine FirstSeen.cons ?_
    rw [List.filter_filter]
    have hp (other : String) : decide (other ∉ listed ++ [name]) =
        (!other == name && decide (other ∉ listed)) := by
      rw [Bool.eq_iff_iff]
      simp [and_comm]
    simpa only [hp] using h

theorem definedBy_defineAll (h : ∀ new ∈ definitions, new.kind = kind) (old : List Routine) :
    DefinedBy kind definitions old (defineAll old definitions) := by
  -- The first definition makes a list that the others are applied to, so the list is arbitrary.
  induction definitions generalizing old with
  | nil => exact ⟨⟨[], .nil, by simp⟩, by simp, fun i routine hr _ => hr⟩
  | cons new rest ih =>
    rw [List.forall_mem_cons] at h
    obtain ⟨⟨added, hs, hl⟩, hd, ho⟩ := ih h.2 (new.define old)
    have hm := map_label_define new old
    have hn := map_name_of_map_label hm
    rw [h.1] at hm
    constructor
    · rw [hn] at hs
      rw [hm, List.append_assoc, ← List.map_append] at hl
      exact ⟨_, firstSeen_unlisted hs, hl⟩
    · intro name
      rw [defineAll_cons, hd, definition?_define, List.reverse_cons, definition?_append,
        definition?_cons, Option.or_assoc]
      split <;> rfl
    · intro i routine hr hc
      have hi : i ≤ (old.map (·.name)).length := by
        rw [List.length_map]
        exact (List.getElem?_eq_some_iff.mp hr).1.le
      have ht : ((new.define old).take i).map (·.name) = (old.take i).map (·.name) := by
        rw [List.map_take, List.map_take, hn, List.take_append_of_le_length hi]
      rw [List.map_cons, List.mem_cons, not_or] at hc
      refine ho i routine (getElem?_define hr (hc.imp_left And.left)) ?_
      rw [ht]
      exact hc.imp_left And.right

/-- The first routine of a name is the one with no other of that name before it. -/
theorem definition?_of_first {i : Nat} (hr : routines[i]? = some routine)
    (hn : routine.name ∉ (routines.take i).map (·.name)) :
    definition? routine.name routines = some routine.definition := by
  induction routines generalizing i with
  | nil => cases hr
  | cons first rest ih =>
    rw [definition?_cons]
    cases i with
    | zero =>
      cases hr
      rw [if_pos rfl]
    | succ i =>
      rw [List.take_succ_cons, List.map_cons, List.mem_cons, not_or] at hn
      rw [if_neg (Ne.symm hn.1), ih hr hn.2]

/-- A list of routines is known by what is listed, the definitions of the names, and the routines
behind others of their name. -/
theorem eq_of_definition? {others : List Routine} (hl : others.map label = routines.map label)
    (hd : ∀ name, definition? name others = definition? name routines)
    (ho : ∀ i routine, routines[i]? = some routine → routine.name ∈ (routines.take i).map (·.name) →
      others[i]? = some routine) : others = routines := by
  refine List.ext_getElem? fun i => ?_
  have hi : others[i]?.map label = routines[i]?.map label := by
    rw [← List.getElem?_map, hl, List.getElem?_map]
  cases hr : routines[i]? with
  | none => simpa [hr] using hi
  | some routine =>
    rw [hr, Option.map_some, Option.map_eq_some_iff] at hi
    obtain ⟨other, hother, he⟩ := hi
    by_cases hn : routine.name ∈ (routines.take i).map (·.name)
    · exact ho i routine hr hn
    · have hnames : (others.take i).map (·.name) = (routines.take i).map (·.name) := by
        simpa [List.map_take, Function.comp_def, label] using
          congrArg (fun labels => (labels.take i).map Prod.snd) hl
      obtain ⟨hkind, hname⟩ := Prod.mk.inj he
      have h₁ := definition?_of_first hr hn
      have h₂ := definition?_of_first hother (by rwa [hname, hnames])
      rw [hname, hd, h₁] at h₂
      cases routine
      cases other
      simp_all

/-- Defining the same routines once more changes nothing. -/
theorem defineAll_defineAll (h : ∀ new ∈ definitions, new.kind = kind) (old : List Routine) :
    defineAll (defineAll old definitions) definitions = defineAll old definitions := by
  obtain ⟨⟨added, hs, hl⟩, hd, -⟩ := definedBy_defineAll h old
  obtain ⟨⟨again, hs', hl'⟩, hd', ho'⟩ := definedBy_defineAll h (defineAll old definitions)
  have hn := map_name_of_map_label hl
  -- Every defined name is listed by now, so none is added.
  have ha : again = [] := by
    refine List.eq_nil_iff_forall_not_mem.mpr fun name hm => ?_
    obtain ⟨hdef, hnot⟩ := List.mem_filter.mp ((hs'.mem_iff name).mp hm)
    rw [hn, decide_eq_true_eq, List.mem_append, not_or] at hnot
    exact hnot.2 ((hs.mem_iff name).mpr (List.mem_filter.mpr ⟨hdef, by simpa using hnot.1⟩))
  refine eq_of_definition? ?_ (fun name => ?_) fun i routine hr hm => ho' i routine hr (.inr hm)
  · rw [hl', ha, List.map_nil, List.append_nil]
  · rw [hd', hd, ← Option.or_assoc, Option.or_self]

theorem DefinedBy.nodup (h : DefinedBy kind definitions old new) (hn : (old.map (·.name)).Nodup) :
    (new.map (·.name)).Nodup := by
  obtain ⟨added, hs, hl⟩ := h.labels
  rw [map_name_of_map_label hl]
  refine List.nodup_append.mpr ⟨hn, hs.nodup, fun name ho other hm he => ?_⟩
  subst he
  exact absurd ho (of_decide_eq_true (List.mem_filter.mp ((hs.mem_iff name).mp hm)).2)

end Routine

namespace Catalog
open Routine

/-- Under each kind, the routines of that kind are defined one after the other. -/
theorem routines_redefine (c : Catalog) (definitions : List Routine) (kind : Routine.Kind) :
    (c.redefine definitions).routines kind =
      defineAll (c.routines kind) (definitions.filter fun new => new.kind = kind) := by
  induction definitions generalizing c with
  | nil => rfl
  | cons new rest ih =>
    rw [redefine_cons, ih, routines_define]
    by_cases hk : new.kind = kind <;> simp [hk]

/-- Definitions change nothing but routines. -/
theorem redefine_eq (c : Catalog) (definitions : List Routine) : c.redefine definitions =
    { c with
      procedures := (c.redefine definitions).routines .procedure
      views := (c.redefine definitions).routines .view } := by
  induction definitions generalizing c with
  | nil => rfl
  | cons new rest ih =>
    rw [redefine_cons, ih, define]
    cases new.kind <;> rfl

theorem redefine_redefine (c : Catalog) (definitions : List Routine) :
    (c.redefine definitions).redefine definitions = c.redefine definitions := by
  have hr (kind : Routine.Kind) :
      ((c.redefine definitions).redefine definitions).routines kind =
        (c.redefine definitions).routines kind := by
    rw [routines_redefine _ _ kind, routines_redefine c _ kind]
    exact defineAll_defineAll (fun new hn => by simpa using (List.mem_filter.mp hn).2) _
  rw [redefine_eq (c.redefine definitions), hr, hr]
  rfl

/-- Definitions make of each list of routines what `DefinedBy` says, and leave the rest of the
catalog as it is. So names stay distinct, those of one kind do nothing to the other kind, the same
definitions once more change nothing, and two lists of definitions one after the other are one
list. -/
theorem last_definitions_hold (c : Catalog) (definitions : List Routine) :
    c.redefine definitions = { c with
      procedures := (c.redefine definitions).routines .procedure
      views := (c.redefine definitions).routines .view } ∧
    (∀ kind, DefinedBy kind (definitions.filter fun new => new.kind = kind) (c.routines kind)
      ((c.redefine definitions).routines kind)) ∧
    (∀ kind, ((c.routines kind).map (·.name)).Nodup →
      (((c.redefine definitions).routines kind).map (·.name)).Nodup) ∧
    (∀ kind, (c.redefine definitions).routines kind =
      (c.redefine (definitions.filter fun new => new.kind = kind)).routines kind) ∧
    (c.redefine definitions).redefine definitions = c.redefine definitions ∧
    ∀ others, (c.redefine definitions).redefine others = c.redefine (definitions ++ others) := by
  have hd (kind : Routine.Kind) :
      DefinedBy kind (definitions.filter fun new => new.kind = kind) (c.routines kind)
      ((c.redefine definitions).routines kind) := by
    rw [routines_redefine]
    exact definedBy_defineAll (fun new hn => by simpa using (List.mem_filter.mp hn).2) _
  refine ⟨redefine_eq c definitions, hd, fun kind hn => (hd kind).nodup hn, fun kind => ?_,
    redefine_redefine c definitions, fun others => (redefine_append c definitions others).symm⟩
  rw [routines_redefine, routines_redefine, List.filter_filter]
  simp only [Bool.and_self]

def sampleListed : Catalog where
  procedures := [⟨.procedure, "p", "1"⟩, ⟨.procedure, "q", "2"⟩]
  views := [⟨.view, "v", "3"⟩]

/-- Two definitions of one procedure, with a new procedure and a view of the name of the other
procedure between. -/
def sampleDefinitions : List Routine :=
  [⟨.procedure, "q", "a"⟩, ⟨.view, "p", "b"⟩, ⟨.procedure, "r", "c"⟩, ⟨.procedure, "q", "d"⟩]

theorem last_definitions_sample :
    sampleListed.redefine sampleDefinitions = {
      procedures := [⟨.procedure, "p", "1"⟩, ⟨.procedure, "q", "d"⟩, ⟨.procedure, "r", "c"⟩]
      views := [⟨.view, "v", "3"⟩, ⟨.view, "p", "b"⟩] } ∧
    definition? "q" ((sampleListed.redefine sampleDefinitions).routines .procedure) = some "d" ∧
    ((sampleListed.routines .procedure).map (·.name)).Nodup ∧
    (((sampleListed.redefine sampleDefinitions).routines .procedure).map (·.name)).Nodup := by
  obtain ⟨-, hd, hn, -⟩ := last_definitions_hold sampleListed sampleDefinitions
  exact ⟨by decide, ((hd .procedure).last "q").trans (by decide), by decide,
    hn .procedure (by decide)⟩

end Catalog
end CatalogDdl
