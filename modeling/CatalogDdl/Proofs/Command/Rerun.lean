import CatalogDdl.Proofs.Command.Writing
import CatalogDdl.Proofs.Dump.Reread

/-!
# Running commands again

A command without an output path writes into the very folder that it reads. Unless links make its
file one that is read, the folder holds the same dump afterwards, every command ends as it would
have ended before, and what the files come to only depends on which commands were run.
-/
namespace CatalogDdl

structure Run where
  now : Option Timestamp := none
  arguments : List String

def FileTree.after (tree : FileTree) (runs : List Run) : FileTree :=
  runs.foldl (fun tree run => (Outcome.ofArguments tree run.now run.arguments).tree) tree

theorem FileTree.after_cons (tree : FileTree) (run : Run) (rest : List Run) :
    tree.after (run :: rest) = (Outcome.ofArguments tree run.now run.arguments).tree.after rest :=
  rfl

def Run.Is (run : Run) (writing : Command.Writing) : Prop :=
  Command.ofArguments run.arguments = .ok writing.command

theorem Run.Is.unique {run : Run} {writing second : Command.Writing} (h : run.Is writing)
    (hs : run.Is second) : writing = second := by
  have hc := h.symm.trans hs
  cases writing <;> cases second <;> cases hc <;> rfl

namespace Command.Writing
open FileTree

/-- The commands on a folder that are given no output path. A script is made with the given
settings. -/
inductive Usual (input : String) (settings : Settings) : Writing → Prop
  | script : Usual input settings (.script input none settings)
  | routines (kind : Routine.Kind) : Usual input settings (.routines kind input none)

variable {input : String} {settings : Settings} {writing second : Writing} {tree other : FileTree}
  {place there : List String} {printed : String} {bytes : ByteArray} {run : Run} {runs : List Run}
  {dump : Dump}

/-- The names of the files that are written unless a path is given. -/
def fileNames : List String := ["schema.sql", "stored_procedures.sql", "views.sql"]

theorem fileName_mem (writing : Writing) : writing.fileName ∈ fileNames := by
  cases writing with
  | script => simp [fileName, fileNames]
  | routines kind => cases kind <;> simp [fileName, routineFile, fileNames]

theorem unslashed_of_mem_fileNames {name : String} (h : name ∈ fileNames) :
    Path.Unslashed name ∧ Path.isIdle name = false := by
  have hp : ∀ name ∈ fileNames, Path.Unslashed name ∧ Path.isIdle name = false := by decide
  exact hp name h

theorem Usual.input_eq (h : Usual input settings writing) : writing.input = input := by
  cases h <;> rfl

theorem Usual.target_eq (h : Usual input settings writing) :
    writing.target = Path.join input writing.fileName := by
  cases h <;> rfl

/-- What a command comes to is up to the dump. -/
theorem report_congr {folder other : Folder}
    (h : Dump.ofFolder writing.input other = Dump.ofFolder writing.input folder)
    (now : Option Timestamp) :
    writing.command.report other now = writing.command.report folder now := by
  cases writing with
  | script input output settings =>
    rw [Writing.input] at h
    simp only [command, report, scriptOf, h]
  | routines kind input output =>
    rw [Writing.input] at h
    simp only [command, report, schemaOf, h]

/-- No file that is written to the folder `input` under one of the names is a file that is read for
the dump there, and no two of them are one file. -/
structure Apart (input : String) (tree : FileTree) : Prop where
  reads : ∀ name ∈ fileNames, ∀ place there, tree.resolve (Path.join input name) = .ok place →
    tree.Reads input there → ¬ tree.Same place there
  writes : ∀ name ∈ fileNames, ∀ other ∈ fileNames, name ≠ other → ∀ place there,
    tree.resolve (Path.join input name) = .ok place →
      tree.resolve (Path.join input other) = .ok there → ¬ tree.Same place there

/-- In a tree without links no file that is written there is one that is read. -/
theorem Apart.of_plain (hp : tree.Plain) (input : String) : Apart input tree := by
  have hf {name : String} (hn : name ∈ fileNames) {place : List String}
      (hr : tree.resolve (Path.join input name) = .ok place) :
      place = (Path.into input).foldl Path.beyond (tree.origin input).place ++ [name] := by
    obtain ⟨hu, hi⟩ := unslashed_of_mem_fileNames hn
    refine hp.resolve_join_eq hu hi ?_ hr
    rintro rfl
    revert hn
    decide
  constructor
  · intro name hn place there hr hd hs
    obtain rfl := hp.same_iff.mp hs
    obtain ⟨names, hl, hk⟩ := hp.place_of_reads hd
    obtain rfl := List.append_cancel_left ((hf hn hr).symm.trans hl)
    rcases hk with ⟨listing, hk⟩ | hk
    · have ho : ∀ listing ∈ Listing.all, listing.file ∉ fileNames := by decide
      exact ho listing listing.mem_all (List.singleton_injective hk ▸ hn)
    · cases hk
  · intro name hn other ho hne place there hr ht hs
    obtain rfl := hp.same_iff.mp hs
    have hl := List.append_cancel_left ((hf hn hr).symm.trans (hf ho ht))
    exact hne (List.singleton_injective hl)

/-- The second tree is the first one after some of the files were written. -/
structure Kept (input : String) (tree other : FileTree) : Prop where
  reads : SameReads input tree other
  same : ∀ first second, other.Same first second ↔ tree.Same first second
  takes : ∀ place, other.Takes place ↔ tree.Takes place
  rights : ∀ place, other.rightsAt place = tree.rightsAt place

theorem Kept.refl (input : String) (tree : FileTree) : Kept input tree tree where
  reads := ⟨.refl tree, fun _ _ => rfl, fun _ _ => rfl⟩
  same _ _ := .rfl
  takes _ := .rfl
  rights _ := rfl

/-- Storing one of the files keeps the dump, and it keeps what was written before. -/
theorem Kept.store {name : String} {written : FileTree} (ha : Apart input tree)
    (h : Kept input tree other) (hn : name ∈ fileNames)
    (hr : tree.resolve (Path.join input name) = .ok place)
    (hs : other.store place bytes = some written) : Kept input tree written := by
  have hw := stored_of_store hs
  have hsame (first second : List String) : written.Same first second ↔ tree.Same first second :=
    (hw.same first second).trans (h.same first second)
  refine ⟨⟨h.reads.ways.trans hw.ways, fun there ht => ?_, fun hd hf => ?_⟩, hsame,
    fun there => (hw.takes there).trans (h.takes there), fun there => ?_⟩
  · have hns : ¬ other.Same place there := mt (h.same _ _).mp (ha.reads name hn _ _ hr ht)
    exact (hw.others there hns).trans (h.reads.file? there ht)
  · refine (hw.names _ _ fun new hp => ?_).trans (h.reads.names hd hf)
    refine Bool.eq_false_iff.mpr fun hdef => ha.reads name hn _ _ hr (.entry hd hf hdef) ?_
    exact hp ▸ .refl tree _
  · by_cases hp : other.Same place there
    · rw [rightsAt, ← ((hw.same _ _).mpr hp).file?_eq, hw.file, Option.elim_some,
        rightsAt, hp.file?_eq]
      exact h.rights there
    · rw [rightsAt, hw.others there hp]
      exact h.rights there

/-- Where a dump is read, no folder has to be made above a file that is written beside it. -/
theorem exists_leads_above (hd : Dump.ofFolder input (tree.dumpFolder input) = .ok dump)
    {name : String} (hn : name ∈ fileNames) : ∃ last,
      tree.Leads (tree.origin (Path.join input name)) (Path.above (Path.join input name)) last ∧
        tree.IsFolder last.place := by
  have hc := Dump.readListing_of_ofFolder hd .columns
  rw [Dump.readListing, listing?_dumpFolder, listingAt?, if_pos rfl] at hc
  obtain ⟨bytes, hb⟩ := Dump.exists_bytes_of_readText hc
  obtain ⟨place, hr, -⟩ := contents?_eq_some_iff.mp (read_eq_ok_iff.mp hb)
  obtain ⟨-, links, hl⟩ := resolve_eq_ok_iff.mp hr
  have hu := unslashed_of_mem_fileNames hn
  obtain ⟨idle, hi⟩ := Path.exists_trimIdle (Path.into input)
  rw [Path.steps_join input (unslashed_file .columns).1] at hl
  obtain ⟨next, hn, hl⟩ := hl.split
  rw [hi] at hn
  obtain ⟨last, hn, ht⟩ := hn.split
  rw [Path.above_join input hu.1 hu.2, origin, Path.isAbsolute_join input hu.1]
  rw [origin, Path.isAbsolute_join input (unslashed_file .columns).1] at hn
  exact ⟨last, hn, ht.isFolder_of_isFolder hl.isFolder⟩

theorem makeAbove_eq (hd : Dump.ofFolder input (tree.dumpFolder input) = .ok dump)
    (hk : SameWays tree other) {name : String} (hn : name ∈ fileNames) :
    other.makeAbove (Path.join input name) =
      let above := Path.above (Path.join input name)
      if above = [] || (Path.check ("/".intercalate above)).isOk then .ok other
        else .error other := by
  obtain ⟨last, hl, hf⟩ := exists_leads_above hd hn
  rw [← hk.leads_iff, ← hk.origin_eq] at hl
  rw [makeAbove, makeFolders_of_leads hl (hk.isFolder_iff.mpr hf)]

/-- Trees with the same ways all have the folders above such a file, or none of them has. -/
theorem makeAbove_cases (hd : Dump.ofFolder input (tree.dumpFolder input) = .ok dump)
    {name : String} (hn : name ∈ fileNames) :
    (∀ other, SameWays tree other → other.makeAbove (Path.join input name) = .ok other) ∨
      ∀ other, SameWays tree other → other.makeAbove (Path.join input name) = .error other := by
  by_cases ha : (Path.above (Path.join input name) = [] ||
      (Path.check ("/".intercalate (Path.above (Path.join input name)))).isOk) = true
  · exact .inl fun other hk => (makeAbove_eq hd hk hn).trans (if_pos ha)
  · exact .inr fun other hk => (makeAbove_eq hd hk hn).trans (if_neg ha)

/-- In every tree that keeps the dump, a run of the command fails with the message. -/
def AlwaysFails (input : String) (tree : FileTree) (writing : Writing) (message : String) : Prop :=
  ∀ other, Kept input tree other → ∀ now,
    Outcome.ofCommand other now writing.command = .failed other message

/-- In every tree that keeps the dump, a run of the command writes the bytes to the place. -/
structure AlwaysWrites (input : String) (tree : FileTree) (writing : Writing) (printed : String)
    (place : List String) (bytes : ByteArray) : Prop where
  leads : tree.resolve (Path.join input writing.fileName) = .ok place
  run : ∀ other, Kept input tree other → ∀ now, ∃ written,
    Outcome.ofCommand other now writing.command = { code := 0, printed, tree := written } ∧
      other.store place bytes = some written

theorem ofCommand_of_write_ok (h : Usual input settings writing) {text : String}
    {now : Option Timestamp} {written : FileTree}
    (hr : writing.command.report (other.dumpFolder input) now =
      .ok { file := some (writing.target, text), printed })
    (hw : other.write (Path.join input writing.fileName) text.toUTF8 = .ok written) :
    Outcome.ofCommand other now writing.command = { code := 0, printed, tree := written } := by
  rw [Outcome.ofCommand_writing, h.input_eq, hr]
  simp only [Outcome.ofReport, h.target_eq, hw]

theorem ofCommand_of_write_error (h : Usual input settings writing) {text : String}
    {now : Option Timestamp}
    (hr : writing.command.report (other.dumpFolder input) now =
      .ok { file := some (writing.target, text), printed })
    (hw : other.write (Path.join input writing.fileName) text.toUTF8 = .error other) :
    Outcome.ofCommand other now writing.command =
      .failed other (Error.unwritable writing.target).message := by
  rw [Outcome.ofCommand_writing, h.input_eq, hr]
  simp only [Outcome.ofReport, h.target_eq, hw]

/-- A command ends in the same way in all trees that keep a dump. -/
theorem Usual.fails_or_writes (h : Usual input settings writing)
    (hd : Dump.ofFolder input (tree.dumpFolder input) = .ok dump) :
    (∃ message, AlwaysFails input tree writing message) ∨
      ∃ printed place bytes, AlwaysWrites input tree writing printed place bytes := by
  have hc {other : FileTree} (hk : Kept input tree other) (now : Option Timestamp) :
      writing.command.report (other.dumpFolder input) now =
        writing.command.report (tree.dumpFolder input) now := by
    refine report_congr ?_ now
    rw [h.input_eq, Dump.ofFolder_reread hk.reads hd, hd]
  rcases writing.report_command (tree.dumpFolder input) with
    ⟨error, -, hr⟩ | ⟨text, printed, -, hr⟩
  · refine .inl ⟨error.message, fun other hk now => ?_⟩
    rw [Outcome.ofCommand_writing, h.input_eq, hc hk, hr]
  · have hf (hw : ∀ other, Kept input tree other →
        other.write (Path.join input writing.fileName) text.toUTF8 = .error other) :
        AlwaysFails input tree writing (Error.unwritable writing.target).message :=
      fun other hk now => ofCommand_of_write_error h ((hc hk now).trans (hr now)) (hw other hk)
    rcases makeAbove_cases hd writing.fileName_mem with hm | hm
    · by_cases hp : ∃ place,
          tree.resolve (Path.join input writing.fileName) = .ok place ∧ tree.Takes place
      · obtain ⟨place, hp, ht⟩ := hp
        refine .inr ⟨printed, place, text.toUTF8, hp, fun other hk now => ?_⟩
        obtain ⟨written, hs⟩ := exists_store ((hk.takes place).mpr ht) text.toUTF8
        refine ⟨written, ofCommand_of_write_ok h ((hc hk now).trans (hr now)) ?_, hs⟩
        exact write_eq_ok_iff.mpr
          ⟨other, place, hm other hk.reads.ways, hk.reads.ways.resolve_eq_ok_iff.mpr hp, hs⟩
      · refine .inl ⟨_, hf fun other hk => write_eq_error (hm other hk.reads.ways) ?_ _⟩
        intro place hr ht
        exact hp ⟨place, hk.reads.ways.resolve_eq_ok_iff.mp hr, (hk.takes place).mp ht⟩
    · refine .inl ⟨_, hf fun other hk => ?_⟩
      rw [write, hm other hk.reads.ways]
      rfl

/-- A run of a usual command keeps the dump. -/
theorem Kept.ofCommand (ha : Apart input tree) (h : Kept input tree other)
    (hd : Dump.ofFolder input (tree.dumpFolder input) = .ok dump)
    (hu : Usual input settings writing) (now : Option Timestamp) :
    Kept input tree (Outcome.ofCommand other now writing.command).tree := by
  rcases hu.fails_or_writes hd with ⟨message, hf⟩ | ⟨printed, place, bytes, hw⟩
  · rw [hf other h]
    exact h
  · obtain ⟨written, hr, hs⟩ := hw.run other h now
    rw [hr]
    exact h.store ha writing.fileName_mem hw.leads hs

/-- What every run of the command leaves at the place, if it is seen there. -/
def Leaves (input : String) (tree : FileTree) (writing : Writing) (there : List String)
    (bytes : ByteArray) : Prop :=
  ∃ printed place, AlwaysWrites input tree writing printed place bytes ∧ tree.Same place there

/-- What a command leaves at a place, it leaves there whatever ran before. -/
theorem Leaves.file? (h : Leaves input tree writing there bytes) (hk : Kept input tree other)
    (now : Option Timestamp) :
    (Outcome.ofCommand other now writing.command).tree.file? there =
      some { bytes, rights := tree.rightsAt there } := by
  obtain ⟨printed, place, hw, hs⟩ := h
  obtain ⟨written, hr, hst⟩ := hw.run other hk now
  have hst := stored_of_store hst
  have hso := (hk.same _ _).mpr hs
  rw [hr, ← ((hst.same _ _).mpr hso).file?_eq, hst.file, hk.rights, rightsAt, rightsAt, hs.file?_eq]

def IsUsual (input : String) (settings : Settings) (run : Run) : Prop :=
  ∃ writing, run.Is writing ∧ Usual input settings writing

theorem ofArguments_of_is (h : run.Is writing) (tree : FileTree) :
    Outcome.ofArguments tree run.now run.arguments =
      Outcome.ofCommand tree run.now writing.command := by
  simp only [Outcome.ofArguments, show Command.ofArguments run.arguments = _ from h]

section Loaded

variable (ha : Apart input tree) (hd : Dump.ofFolder input (tree.dumpFolder input) = .ok dump)
include ha hd

/-- Runs of usual commands keep the dump, however many they are. -/
theorem Kept.after (h : Kept input tree other) (hr : ∀ run ∈ runs, IsUsual input settings run) :
    Kept input tree (other.after runs) := by
  induction runs generalizing other with
  | nil => exact h
  | cons run rest ih =>
    rw [List.forall_mem_cons] at hr
    obtain ⟨⟨writing, hi, hu⟩, hr⟩ := hr
    rw [after_cons, ofArguments_of_is hi]
    exact ih (h.ofCommand ha hd hu run.now) hr

end Loaded

theorem resolve_shop_file (dump : Dump) (rights : Listing → Rights) {name : String}
    (hn : name ∈ fileNames) :
    (shop dump rights).resolve (Path.join "d" name) = .ok ["srv", "dump", name] ∧
      (shop dump rights).node? ["srv", "dump", name] = none := by
  have hl : ∀ name ∈ fileNames, (shop {} fun _ => {}).resolve (Path.join "d" name) =
      .ok ["srv", "dump", name] ∧ (shop {} fun _ => {}).node? ["srv", "dump", name] = none := by
    decide +kernel
  exact ⟨(sameWays_shop dump rights).resolve_eq_ok_iff.mpr (hl name hn).1, (hl name hn).2⟩

theorem Apart.shop (dump : Dump) (rights : Listing → Rights) : Apart "d" (shop dump rights) := by
  have hs {name : String} (hn : name ∈ fileNames) {place there : List String}
      (hr : (FileTree.shop dump rights).resolve (Path.join "d" name) = .ok place)
      (h : (FileTree.shop dump rights).Same place there) : there = ["srv", "dump", name] := by
    obtain ⟨hp, hf⟩ := resolve_shop_file dump rights hn
    obtain rfl := Except.ok.inj (hp.symm.trans hr)
    rcases h with h | ⟨number, h, -⟩
    · exact h.symm
    · cases hf.symm.trans h
  constructor
  · intro name hn place there hr hd h
    cases hd with
    | listing listing hl =>
      have ho : ∀ listing ∈ Listing.all, listing.file ∉ fileNames := by decide
      rw [resolve_shop, Except.ok.injEq, hs hn hr h] at hl
      obtain rfl : listing.file = name := by simpa using hl
      exact ho listing listing.mem_all hn
    | entry hd => exact not_defines_shop _ _ _ _ hd
    | definition hd => exact not_defines_shop _ _ _ _ hd
  · intro name hn other ho hne place there hr ht h
    have hq := hs hn hr h
    rw [(resolve_shop_file dump rights ho).1, Except.ok.injEq, hq] at ht
    exact hne (by simpa using ht.symm)

end Command.Writing
end CatalogDdl
