import CatalogDdl.Proofs.Schema.Placed

/-!
# Placing tables from a queue

Each table has a count of the tables it waits for, and those that wait for none stand in a queue in
ascending order. The first of them is placed, again and again, and the counts of the tables that
refer to it go down. Once the queue is empty the tables that still have a count follow by name.
This comes to the declared order.
-/
namespace CatalogDdl.DeclaredOrder

variable {names pending : List String} {parts : List ForeignKeyPart} {part : ForeignKeyPart}
  {edges : List (String × String)} {table referenced : String}

/-- References between tables, each once with the referenced table first, and for each table how
many it refers to. -/
structure Tally where
  edges : List (String × String) := []
  counts : List (String × Nat)

/-- A part counts unless its table refers to itself, a table is not known, or the reference is
counted already. -/
def Tally.add (tally : Tally) (part : ForeignKeyPart) : Tally :=
  let edge := (part.referencedTable, part.table)
  let known := tally.counts.map (·.1)
  if edge.1 = edge.2 ∨ edge.1 ∉ known ∨ edge.2 ∉ known ∨ edge ∈ tally.edges then tally
  else
    { edges := tally.edges ++ [edge]
      counts := tally.counts.map fun (name, n) => (name, if name = edge.2 then n + 1 else n) }

def tally (names : List String) (parts : List ForeignKeyPart) : Tally :=
  parts.foldl Tally.add { counts := names.map fun name => (name, 0) }

/-- How many of the pending tables a table refers to. -/
def waits (edges : List (String × String)) (pending : List String) (table : String) : Nat :=
  edges.countP fun edge => edge.2 = table ∧ edge.1 ∈ pending

structure Tally.Of (names : List String) (parts : List ForeignKeyPart) (tally : Tally) : Prop where
  nodup : tally.edges.Nodup
  mem_edges : ∀ referenced table,
    (referenced, table) ∈ tally.edges ↔ Edge names parts table referenced
  counts : tally.counts = names.map fun name => (name, waits tally.edges names name)

theorem edge_concat : Edge names (parts ++ [part]) table referenced ↔
    Edge names parts table referenced ∨ table ∈ names ∧ referenced ∈ names ∧
      part.table = table ∧ part.referencedTable = referenced ∧ referenced ≠ table := by
  simp only [Edge, Refers, List.mem_append, List.mem_singleton, or_and_right, exists_or,
    exists_eq_left, and_or_left]

/-- Adding a part keeps the tally right. -/
theorem Tally.Of.add {tally : Tally} (h : tally.Of names parts) (part : ForeignKeyPart) :
    (tally.add part).Of names (parts ++ [part]) := by
  have hk : tally.counts.map (·.1) = names := by simp [h.counts, Function.comp_def]
  unfold Tally.add
  simp only [hk]
  split
  · rename_i hi
    refine ⟨h.nodup, fun referenced table => ?_, h.counts⟩
    rw [h.mem_edges, edge_concat]
    refine ⟨.inl, fun he => he.elim id ?_⟩
    rintro ⟨ht, hr, rfl, rfl, hne⟩
    rcases hi with hi | hi | hi | hi
    · exact absurd hi hne
    · exact absurd hr hi
    · exact absurd ht hi
    · exact (h.mem_edges _ _).mp hi
  · rename_i hn
    push Not at hn
    obtain ⟨hne, hr, ht, hm⟩ := hn
    refine ⟨?_, fun referenced table => ?_, ?_⟩
    · exact h.nodup.append (List.nodup_singleton _) (by simpa using hm)
    · rw [List.mem_append, List.mem_singleton, h.mem_edges, edge_concat, Prod.mk.injEq]
      refine or_congr_right ⟨?_, ?_⟩
      · rintro ⟨rfl, rfl⟩
        exact ⟨ht, hr, rfl, rfl, hne⟩
      · rintro ⟨-, -, rfl, rfl, -⟩
        exact ⟨rfl, rfl⟩
    · rw [h.counts, List.map_map]
      refine List.map_congr_left fun name _ => ?_
      simp only [Function.comp_def, waits, List.countP_append, List.countP_singleton, hr,
        and_true, eq_comm (a := part.table), decide_eq_true_eq]
      split <;> rfl

theorem tally_of (names : List String) (parts : List ForeignKeyPart) :
    (tally names parts).Of names parts := by
  induction parts using List.reverseRecOn with
  | nil => exact ⟨.nil, by simp [tally, Edge, Refers], by simp [tally, waits]⟩
  | append_singleton parts part ih =>
    rw [tally, List.foldl_append]
    exact ih.add part

/-- The counts of the tables that are not placed, and those of them that wait for none. -/
structure Queue where
  counts : List (String × Nat)
  ready : List String

/-- A table that `target` waits for was placed. -/
def Queue.visit (queue : Queue) (target : String) : Queue :=
  match queue.counts.lookup target with
  | none => queue
  | some n =>
    { counts := queue.counts.map fun (name, m) => (name, if name = target then n - 1 else m)
      ready := if n - 1 = 0 then sortNames (target :: queue.ready) else queue.ready }

/-- The tables that refer to a table, in ascending order. -/
def dependents (edges : List (String × String)) (table : String) : List String :=
  sortNames ((edges.filter fun edge => edge.1 = table).map (·.2))

/-- The order in which tables are placed from a queue until it is empty. -/
inductive Drains (edges : List (String × String)) : Queue → List String → Prop
  | stop (counts : List (String × Nat)) : Drains edges ⟨counts, []⟩ (counts.map (·.1))
  | place {counts : List (String × Nat)} {table : String} {rest order : List String}
      (h : Drains edges ((dependents edges table).foldl Queue.visit
        ⟨counts.filter fun entry => entry.1 ≠ table, rest⟩) order) :
      Drains edges ⟨counts, table :: rest⟩ (table :: order)

/-- A queue is emptied in one order only. -/
theorem Drains.unique {queue : Queue} {order other : List String} (h : Drains edges queue order)
    (ho : Drains edges queue other) : order = other := by
  induction h generalizing other with
  | stop =>
    cases ho
    rfl
  | place _ ih =>
    cases ho with
    | place ho => rw [ih ho]

structure Queue.Of (edges : List (String × String)) (pending : List String) (queue : Queue) :
    Prop where
  counts : queue.counts = pending.map fun name => (name, waits edges pending name)
  ascending : queue.ready.Pairwise (· < ·)
  mem_ready : ∀ name, name ∈ queue.ready ↔ name ∈ pending ∧ waits edges pending name = 0

/-- A visit takes one from the count of its table, which joins the queue if that comes to zero. -/
theorem visit_eq {w : String → Nat} {queue : Queue}
    (hc : queue.counts = pending.map fun name => (name, w name)) (target : String) :
    (queue.visit target).counts =
      (pending.map fun name => (name, if name = target then w name - 1 else w name)) ∧
    (queue.visit target).ready = if target ∈ pending ∧ w target - 1 = 0
      then sortNames (target :: queue.ready) else queue.ready := by
  unfold Queue.visit
  by_cases ht : target ∈ pending
  · have hl : queue.counts.lookup target = some (w target) := by
      rw [hc]
      exact List.lookup_graph w ht
    simp only [hl, ht, true_and, and_true]
    rw [hc, List.map_map]
    refine List.map_congr_left fun name _ => ?_
    by_cases hn : name = target
    · subst hn
      simp
    · simp [hn]
  · have hl : queue.counts.lookup target = none := by
      rw [hc, List.lookup_eq_none_iff]
      intro entry hm
      obtain ⟨name, hn, rfl⟩ := List.mem_map.mp hm
      simpa using fun he : target = name => ht (he ▸ hn)
    simp only [hl, ht, false_and, if_false, and_true]
    rw [hc]
    refine List.map_congr_left fun name hn => ?_
    rw [if_neg fun he : name = target => ht (he ▸ hn)]

/-- Visits to distinct tables take one from each of their counts. -/
theorem foldl_visit {w : String → Nat} {queue : Queue} {targets : List String}
    (hn : targets.Nodup) (hc : queue.counts = pending.map fun name => (name, w name))
    (ha : queue.ready.Pairwise (· < ·)) :
    (targets.foldl Queue.visit queue).counts =
      (pending.map fun name => (name, if name ∈ targets then w name - 1 else w name)) ∧
    (targets.foldl Queue.visit queue).ready.Pairwise (· < ·) ∧
    ∀ name, name ∈ (targets.foldl Queue.visit queue).ready ↔
      name ∈ queue.ready ∨ name ∈ targets ∧ name ∈ pending ∧ w name - 1 = 0 := by
  induction targets generalizing queue w with
  | nil => exact ⟨by simpa using hc, ha, by simp⟩
  | cons target rest ih =>
    obtain ⟨ht, hn⟩ := List.nodup_cons.mp hn
    obtain ⟨hv, hr⟩ := visit_eq hc target
    have hs : (queue.visit target).ready.Pairwise (· < ·) := by
      rw [hr]
      split
      · exact sortNames_ascending _
      · exact ha
    have hm (name : String) : name ∈ (queue.visit target).ready ↔
        name ∈ queue.ready ∨ name = target ∧ name ∈ pending ∧ w name - 1 = 0 := by
      rw [hr]
      split
      · rename_i hz
        rw [mem_sortNames, List.mem_cons, or_comm]
        refine or_congr_right ⟨?_, And.left⟩
        rintro rfl
        exact ⟨rfl, hz⟩
      · rename_i hz
        refine ⟨.inl, ?_⟩
        rintro (h | ⟨rfl, h⟩)
        · exact h
        · exact absurd h hz
    obtain ⟨hc, ha, hi⟩ := ih hn hv hs
    -- No later visit goes to the same table.
    have hw {name : String} (h : name ∈ rest) :
        (if name = target then w name - 1 else w name) = w name :=
      if_neg fun he : name = target => ht (he ▸ h)
    refine ⟨hc.trans (List.map_congr_left fun name _ => ?_), ha, fun name => ?_⟩
    · by_cases h : name ∈ rest
      · simp [h, hw h]
      · simp [h]
    · rw [List.foldl_cons, hi, hm, or_assoc, List.mem_cons, or_and_right]
      refine or_congr_right (or_congr_right (and_congr_right fun h => ?_))
      rw [hw h]

/-- A table waits for one table less once a table that it refers to is placed. -/
theorem waits_erase (hn : edges.Nodup) (hp : pending.Nodup) (ht : table ∈ pending)
    (name : String) : waits edges pending name =
      waits edges (pending.erase table) name + if (table, name) ∈ edges then 1 else 0 := by
  rw [← hn.count]
  clear hn
  unfold waits
  induction edges with
  | nil => rfl
  | cons edge rest ih =>
    obtain ⟨first, second⟩ := edge
    rw [List.countP_cons, List.countP_cons, List.count_cons, ih]
    by_cases hf : first = table
    · subst hf
      by_cases hs : second = name
      · simp [hs, ht, hp.mem_erase_iff]
        omega
      · simp [hs]
    · simp [hf, hp.mem_erase_iff]
      omega

theorem mem_dependents {name : String} : name ∈ dependents edges table ↔ (table, name) ∈ edges := by
  simp [dependents, mem_sortNames]

/-- Placing the first table of the queue leaves a queue of the other tables. -/
theorem Queue.Of.place {counts : List (String × Nat)} {rest : List String} (hn : edges.Nodup)
    (hp : pending.Nodup) (h : Queue.Of edges pending ⟨counts, table :: rest⟩) :
    ((dependents edges table).foldl Queue.visit
      ⟨counts.filter fun entry => entry.1 ≠ table, rest⟩).Of edges (pending.erase table) := by
  obtain ⟨ht, -⟩ := (h.mem_ready table).mp List.mem_cons_self
  obtain ⟨hl, ha⟩ := List.pairwise_cons.mp h.ascending
  have hc : (counts.filter fun entry => entry.1 ≠ table) =
      (pending.erase table).map fun name => (name, waits edges pending name) := by
    rw [show counts = _ from h.counts, List.filter_map, hp.erase_eq_filter]
    congr 1
    refine List.filter_congr fun name _ => ?_
    rw [Bool.eq_iff_iff]
    simp
  have hr (name : String) :
      name ∈ rest ↔ name ∈ pending.erase table ∧ waits edges pending name = 0 := by
    have hm := h.mem_ready name
    rw [List.mem_cons] at hm
    rw [hp.mem_erase_iff, and_assoc, ← hm, or_comm]
    constructor
    · exact fun hr => ⟨fun he => lt_irrefl table (hl table (he ▸ hr)), .inl hr⟩
    · exact fun hr => hr.2.resolve_right hr.1
  have hw (name : String) : waits edges (pending.erase table) name =
      if name ∈ dependents edges table then waits edges pending name - 1
      else waits edges pending name := by
    simp only [waits_erase hn hp ht name, mem_dependents]
    split <;> omega
  obtain ⟨hv, ha, hm⟩ := @foldl_visit (pending.erase table) (waits edges pending) ⟨_, rest⟩
    (dependents edges table) (nodup_sortNames _) hc ha
  refine ⟨hv.trans (List.map_congr_left fun name _ => by rw [hw]), ha, fun name => ?_⟩
  rw [hm, hr, hw]
  by_cases hd : name ∈ dependents edges table
  · simp only [hd, if_true, true_and]
    constructor
    · rintro (⟨hm, hz⟩ | h)
      · exact ⟨hm, by omega⟩
      · exact h
    · exact .inr
  · simp [hd]

/-- The first table of the queue is the first one that is ready. -/
theorem Queue.Of.head?_ready {queue : Queue} (h : queue.Of edges pending)
    (ha : pending.Pairwise (· < ·))
    (he : ∀ referenced table, table ∈ pending → referenced ∈ pending →
      ((referenced, table) ∈ edges ↔ Refers parts table referenced)) :
    queue.ready.head? = pending.find? (isReady parts pending) := by
  have hw : ∀ name ∈ pending, waits edges pending name = 0 ↔ isReady parts pending name = true := by
    intro name hn
    rw [isReady_iff, waits, List.countP_eq_zero]
    simp only [decide_eq_true_eq, not_and, Prod.forall]
    constructor
    · intro hz referenced hr hm
      exact hz referenced name ((he _ _ hn hm).mpr hr) rfl hm
    · rintro hz referenced _ hm rfl hp
      exact hz referenced ((he _ _ hn hp).mp hm) hp
  have hf : queue.ready = pending.filter (isReady parts pending) := by
    have hs := ha.filter (isReady parts pending)
    have hp : queue.ready.Perm (pending.filter (isReady parts pending)) := by
      refine (List.perm_ext_iff_of_nodup ?_ ?_).mpr fun name => ?_
      · exact h.ascending.imp fun h => ne_of_lt h
      · exact hs.imp fun h => ne_of_lt h
      · rw [h.mem_ready, List.mem_filter]
        exact and_congr_right (hw name)
    exact hp.eq_of_pairwise (fun _ _ _ _ h hl => absurd hl (lt_asymm h)) h.ascending hs
  rw [hf, List.head?_filter]

/-- The queue is emptied, and the order is the one in which the tables settle. -/
theorem drains_settle {queue : Queue} (hn : edges.Nodup) (h : queue.Of edges pending)
    (ha : pending.Pairwise (· < ·))
    (he : ∀ referenced table, table ∈ pending → referenced ∈ pending →
      ((referenced, table) ∈ edges ↔ Refers parts table referenced)) :
    Drains edges queue (settle parts pending) := by
  fun_induction settle parts pending generalizing queue with
  | case1 pending hf =>
    have hr := h.head?_ready ha he
    obtain ⟨counts, ready⟩ := queue
    obtain rfl : ready = [] := List.head?_eq_none_iff.mp (hr.trans hf)
    have hc : counts.map (·.1) = pending := by
      rw [show counts = _ from h.counts, List.map_map]
      exact List.map_id pending
    exact hc ▸ .stop counts
  | case2 pending table hf ih =>
    have hr := h.head?_ready ha he
    obtain ⟨counts, ready⟩ := queue
    obtain ⟨rest, rfl⟩ : ∃ rest, ready = table :: rest := List.head?_eq_some_iff.mp (hr.trans hf)
    have hp : pending.Nodup := ha.imp fun h => ne_of_lt h
    refine .place (ih (h.place hn hp) (ha.sublist List.erase_sublist) fun first second hs hm => ?_)
    exact he first second (List.mem_of_mem_erase hs) (List.mem_of_mem_erase hm)

/-- The queue at first: the tables that refer to none. -/
def Tally.queue (tally : Tally) : Queue :=
  ⟨tally.counts, (tally.counts.filter fun entry => entry.2 = 0).map (·.1)⟩

/-- Placed from the queue of their tally, tables stand in the declared order, and in no other
one. -/
theorem drains_iff_declaredOrder (names : List String) (parts : List ForeignKeyPart)
    (order : List String) :
    Drains (tally (sortNames names) parts).edges (tally (sortNames names) parts).queue order ↔
      order = declaredOrder names parts := by
  have ht := tally_of (sortNames names) parts
  generalize tally (sortNames names) parts = all at ht
  have ha := sortNames_ascending names
  have hk : all.counts.map (·.1) = sortNames names := by
    rw [ht.counts, List.map_map]
    exact List.map_id _
  have hq : all.queue.Of all.edges (sortNames names) := by
    refine ⟨ht.counts, ?_, fun name => ?_⟩
    · exact (hk ▸ ha).sublist (List.filter_sublist.map _)
    · simp [Tally.queue, ht.counts]
  have hd : Drains all.edges all.queue (declaredOrder names parts) := by
    refine drains_settle ht.nodup hq ha fun referenced table hm hr => ?_
    simp only [ht.mem_edges, Edge, hm, hr, true_and]
  refine ⟨fun ho => ho.unique hd, ?_⟩
  rintro rfl
  exact hd

end CatalogDdl.DeclaredOrder
