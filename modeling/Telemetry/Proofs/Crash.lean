import Telemetry.Proofs.Path
import Telemetry.Proofs.Restart

/-! A save that stops anywhere. Every step of a save but the last works on the temporary file alone,
and by the last one its bytes are on the disk for good (`unsynced`); so whether a step fails or the
power is lost, the backup is the old one or the new one as a whole. `Saved` is all that a save may
leave; the temporary file lies in the folder of the backup under another name. -/

namespace Telemetry

namespace Backup

open Telemetry.Path (parts ofParts isAbsolute normal parent fileName? Plain)

/-! ### The temporary file -/

theorem plain_temporary {name : String} (h : Plain name) : Plain ("." ++ name ++ ".tmp") where
  nonempty e := by simpa using congrArg String.toList e
  moves e := by simpa [String.toList_append] using congrArg (fun s : String => s.toList.length) e
  single := by simp [h.single]

theorem temporaryPath_eq {path : String} (named : fileName? path ≠ none) :
    ∃ folders name, (∀ p ∈ folders ++ [name], Plain p) ∧ parts path = folders ++ [name] ∧
      temporaryPath path = ofParts (isAbsolute path) (folders ++ ["." ++ name ++ ".tmp"]) := by
  obtain ⟨name, hname⟩ := Option.ne_none_iff_exists'.1 named
  obtain ⟨folders, hparts⟩ := List.getLast?_eq_some_iff.1 (Option.filter_eq_some_iff.1 hname).1
  refine ⟨folders, name, fun p hp => Path.mem_parts (hparts ▸ hp), hparts, ?_⟩
  rw [temporaryPath, temporaryName, Path.sibling, hname, hparts]
  simp

/-- The temporary file is in the folder of the backup, and never the backup itself. -/
theorem temporaryPath_beside {path : String} (named : fileName? path ≠ none) :
    normal (temporaryPath path) ≠ normal path ∧ parent (temporaryPath path) = parent path := by
  obtain ⟨folders, name, plain, hparts, htemporary⟩ := temporaryPath_eq named
  have plain' : ∀ p ∈ folders ++ ["." ++ name ++ ".tmp"], Plain p := by
    intro p hp
    rcases List.mem_append.1 hp with hp | hp
    · exact plain p (List.mem_append_left _ hp)
    · rw [List.mem_singleton.1 hp]
      exact plain_temporary (plain name (List.mem_append_right _ (List.mem_singleton_self _)))
  constructor
  · intro same
    rw [htemporary, Path.normal_ofParts plain', normal, hparts] at same
    have sameParts := congrArg parts same
    rw [Path.parts_ofParts plain', Path.parts_ofParts plain] at sameParts
    have sameName := List.singleton_inj.1 (List.append_cancel_left sameParts)
    have longer := congrArg (fun s : String => s.toList.length) sameName
    have dot : ".".toList.length = 1 := rfl
    simp only [String.toList_append, List.length_append] at longer
    omega
  · rw [htemporary, parent, parent, Path.isAbsolute_ofParts plain', Path.parts_ofParts plain', hparts,
      List.dropLast_concat, List.dropLast_concat]

end Backup

namespace FileStep

open Telemetry.Path (normal)

/-- The files with bytes that are not on the disk yet, so that a loss of power may change them: those
that were written since they were last synced, under whatever name. -/
def unsynced (files : List String) : FileStep → List String
  | makeFolders _ => files
  | create path | append path _ => normal path :: files
  | sync path => files.filter (· ≠ normal path)
  | rename source target =>
    if normal source ∈ files then normal target :: files else files.filter (· ≠ normal target)

theorem unsynced_subset {files within : List String} {step : FileStep} (hfiles : files ⊆ within)
    (h : step.touched ⊆ within) : step.unsynced files ⊆ within := by
  cases step with
  | makeFolders path => exact hfiles
  | create path => exact List.cons_subset.2 ⟨h List.mem_cons_self, hfiles⟩
  | append path content => exact List.cons_subset.2 ⟨h List.mem_cons_self, hfiles⟩
  | sync path => exact fun file hfile => hfiles (List.mem_of_mem_filter hfile)
  | rename source target =>
    simp only [unsynced]
    split_ifs
    · exact List.cons_subset.2 ⟨h (List.mem_cons_of_mem _ List.mem_cons_self), hfiles⟩
    · exact fun file hfile => hfiles (List.mem_of_mem_filter hfile)

end FileStep

namespace Directory

/-- The files with bytes that are not on the disk yet after some steps. -/
def unsynced (steps : List FileStep) : List String := steps.foldl FileStep.unsynced []

theorem unsynced_subset {steps : List FileStep} {within : List String}
    (h : ∀ step ∈ steps, step.touched ⊆ within) : unsynced steps ⊆ within := by
  have from_files (files : List String) (hfiles : files ⊆ within) :
      steps.foldl FileStep.unsynced files ⊆ within := by
    induction steps generalizing files with
    | nil => exact hfiles
    | cons step steps ih =>
      exact ih (fun s hs => h s (List.mem_cons_of_mem _ hs)) _
        (FileStep.unsynced_subset hfiles (h step List.mem_cons_self))
  exact from_files [] (List.nil_subset _)

end Directory

namespace Backup

open Telemetry.Path (normal parent fileName?)
open Directory (unsynced)

/-! ### The steps of a save -/

def staging (path : String) (chunks : List ByteArray) : List FileStep :=
  (if parent path = "" then [] else [.makeFolders (parent path)]) ++
    .create (temporaryPath path) :: chunks.map (.append (temporaryPath path)) ++
    [.sync (temporaryPath path)]

theorem steps_eq (path : String) (chunks : List ByteArray) :
    steps path chunks = staging path chunks ++ [.rename (temporaryPath path) path] := by
  simp [steps, staging]

theorem touched_staging {path : String} {chunks : List ByteArray} :
    ∀ step ∈ staging path chunks, step.touched ⊆ [normal (temporaryPath path)] := by
  intro step hstep
  simp only [staging, List.mem_append, List.mem_cons, List.mem_map, List.not_mem_nil, or_false]
    at hstep
  rcases hstep with (hfolders | rfl | ⟨chunk, -, rfl⟩) | rfl
  · split_ifs at hfolders
    · cases hfolders
    · rw [List.mem_singleton.1 hfolders]
      exact List.nil_subset _
  · exact List.Subset.refl _
  · exact List.Subset.refl _
  · exact List.nil_subset _

theorem unsynced_steps (path : String) (chunks : List ByteArray) :
    unsynced (steps path chunks) = [] := by
  -- nothing but the temporary file is written before it is synced
  have staged : unsynced (staging path chunks) = [] := by
    have within : unsynced (staging path chunks).dropLast ⊆ [normal (temporaryPath path)] :=
      Directory.unsynced_subset fun step hstep => touched_staging step (List.mem_of_mem_dropLast hstep)
    rw [staging, List.dropLast_concat] at within
    rw [staging, unsynced, List.foldl_append]
    exact List.filter_eq_nil_iff.2 fun file hfile => by simpa using List.mem_singleton.1 (within hfile)
  rw [steps_eq, unsynced, List.foldl_append, ← unsynced, staged]
  rfl

/-- What a save of a store may leave in a directory, with what it returns if it does. It writes its
lines in any chunks and may stop anywhere: a step fails, whatever folders it has made, or the power is
lost, perhaps with the last steps, and files that were not synced hold anything. -/
inductive Saved (s : Store) (path : String) (d : Directory) :
    Directory → Option (Except Error ℕ) → Prop
  | unread {why : Storage.Error} (metrics : s.metrics = .error why) :
    Saved s path d d (some (.error (.store why)))
  | failed {ms : List Metric} {chunks : List (List UInt8)} {before after : List FileStep}
    {step : FileStep} {d₁ d' : Directory} (metrics : s.metrics = .ok ms)
    (written : chunks.flatten = write ms)
    (stop : steps path (chunks.map Bytes.ofList) = before ++ step :: after)
    (run : d.run before = (d₁, none)) (kept : ∀ other, d'.read? other = d₁.read? other) :
    Saved s path d d' (some (.error (.io step.path)))
  | lost {ms : List Metric} {chunks : List (List UInt8)} {before after : List FileStep}
    {d₁ d' : Directory} (metrics : s.metrics = .ok ms) (written : chunks.flatten = write ms)
    (stop : steps path (chunks.map Bytes.ofList) = before ++ after)
    (run : d.run before = (d₁, none))
    (kept : ∀ other, normal other ∉ unsynced before → d'.read? other = d₁.read? other) :
    Saved s path d d' none
  | done {ms : List Metric} {chunks : List (List UInt8)} {d' : Directory}
    (metrics : s.metrics = .ok ms) (written : chunks.flatten = write ms)
    (run : d.run (steps path (chunks.map Bytes.ofList)) = (d', none)) :
    Saved s path d d' (some (.ok ms.length))

theorem saved_saveStore (s : Store) (path : String) (d : Directory) :
    Saved s path d (saveStore s path d).1 (some (saveStore s path d).2) := by
  unfold saveStore
  cases metrics : s.metrics with
  | error why => exact .unread metrics
  | ok ms =>
    have written : (ms.map line).flatten = write ms := (List.flatMap_def ..).symm
    have chunks : ms.map (fun m => Bytes.ofList (line m)) = (ms.map line).map Bytes.ofList := by
      rw [List.map_map]
      rfl
    simp only [save, chunks]
    split
    · next d' run => exact .done metrics written run
    · next d' step run =>
      obtain ⟨before, after, stop, run⟩ := Directory.exists_of_run_eq_some run
      exact .failed metrics written stop run fun _ => rfl

def Kept (path : String) (d d' : Directory) : Prop :=
  ∀ other, normal other ≠ normal (temporaryPath path) → d'.read? other = d.read? other

/-- The backup holds the lines of these metrics, the temporary file is gone and every other file is
as it was. -/
structure Replaced (ms : List Metric) (path : String) (d d' : Directory) : Prop where
  backup : d'.read? path = some (Bytes.ofList (write ms))
  temporary : d'.read? (temporaryPath path) = none
  others : ∀ other, normal other ≠ normal path → normal other ≠ normal (temporaryPath path) →
    d'.read? other = d.read? other

theorem kept_of_run {path : String} {chunks : List ByteArray} {before : List FileStep}
    {d d' : Directory} (stop : before <+: staging path chunks) (run : d.run before = (d', none)) :
    Kept path d d' := by
  refine fun other hother => Directory.read?_run run fun step hstep htouched => hother ?_
  exact List.mem_singleton.1 (touched_staging step (stop.subset hstep) htouched)

theorem replaced_of_run {path : String} (named : fileName? path ≠ none) {ms : List Metric}
    {chunks : List (List UInt8)} {d d' : Directory} (written : chunks.flatten = write ms)
    (run : d.run (steps path (chunks.map Bytes.ofList)) = (d', none)) : Replaced ms path d d' := by
  have apart := (temporaryPath_beside named).1
  obtain ⟨backup, -⟩ := read?_run_steps run
  rw [steps_eq] at run
  obtain ⟨d₁, hstaging, run⟩ := Directory.run_append_eq_none_iff.1 run
  obtain ⟨d₂, hrename, run⟩ := Directory.run_cons_eq_none_iff.1 run
  obtain rfl := (Prod.mk.inj run).1
  refine ⟨written ▸ backup, ?_, fun other hpath htemporary => ?_⟩
  · simp only [FileStep.perform?, Directory.rename?] at hrename
    split at hrename
    · split_ifs at hrename
      obtain rfl := Option.some.inj hrename
      rw [Directory.read?_write_of_ne _ apart, Directory.read?_remove, if_pos rfl]
    · cases hrename
  · have renamed : d₂.read? other = d₁.read? other :=
      FileStep.read?_perform hrename (by simp [FileStep.touched, hpath, htemporary])
    exact renamed.trans (kept_of_run (List.prefix_refl _) hstaging other htemporary)

/-- A save leaves all but the temporary file as it was, or it replaces the backup and nothing else. -/
theorem Saved.cases {s : Store} {path : String} (named : fileName? path ≠ none)
    {d d' : Directory} {result : Option (Except Error ℕ)} (saved : Saved s path d d' result) :
    (Kept path d d' ∧ ∀ n, result ≠ some (.ok n)) ∨
      ∃ ms, s.metrics = .ok ms ∧ Replaced ms path d d' ∧ ∀ n, result = some (.ok n) → n = ms.length := by
  cases saved with
  | unread metrics => exact Or.inl ⟨fun _ _ => rfl, nofun⟩
  | @failed ms chunks before after step d₁ d' metrics written stop run kept =>
    have short : before <+: staging path (chunks.map Bytes.ofList) := by
      have whole : before <+: staging path (chunks.map Bytes.ofList) ++ [_] :=
        ⟨step :: after, stop.symm.trans (steps_eq _ _)⟩
      refine (List.prefix_concat_iff.1 whole).resolve_left fun all => ?_
      rw [all, ← steps_eq] at stop
      simp at stop
    exact Or.inl ⟨fun other hother => (kept other).trans (kept_of_run short run other hother), nofun⟩
  | @lost ms chunks before after d₁ d' metrics written stop run kept =>
    have whole : before <+: staging path (chunks.map Bytes.ofList) ++ [_] :=
      ⟨after, stop.symm.trans (steps_eq _ _)⟩
    rcases List.prefix_concat_iff.1 whole with all | short
    -- what was renamed had been synced, so the loss of power changes nothing any more
    · rw [← steps_eq] at all
      subst all
      rw [unsynced_steps] at kept
      obtain ⟨backup, temporary, others⟩ := replaced_of_run named written run
      refine Or.inr ⟨ms, metrics, ⟨?_, ?_, fun other hpath htemporary => ?_⟩, nofun⟩
      · rw [kept path List.not_mem_nil, backup]
      · rw [kept _ List.not_mem_nil, temporary]
      · rw [kept other List.not_mem_nil, others other hpath htemporary]
    · refine Or.inl ⟨fun other hother => ?_, nofun⟩
      have synced : normal other ∉ unsynced before := fun hmem =>
        hother (List.mem_singleton.1 (Directory.unsynced_subset
          (fun step hstep => touched_staging step (short.subset hstep)) hmem))
      rw [kept other synced, kept_of_run short run other hother]
  | done metrics written run =>
    refine Or.inr ⟨_, metrics, replaced_of_run named written run, fun n hn => ?_⟩
    exact (Except.ok.inj (Option.some.inj hn)).symm

/-- Saves are crash-safe. Whatever a store holds and whatever was in the directory, a save that stops
anywhere, at a step that fails or since the power is lost, leaves the backup as it was or with one
line for each metric in the order of their names. It only succeeds with the second, and then the
temporary file is gone; no other file is touched, and the temporary file is beside the backup. -/
theorem saves_are_crash_safe {s : Store} (sorted : s.names.Pairwise (· < ·)) {path : String}
    (named : fileName? path ≠ none) (d : Directory) :
    normal (temporaryPath path) ≠ normal path ∧ parent (temporaryPath path) = parent path ∧
    (∀ ms, s.metrics = .ok ms →
      Text.lineBytes (write ms) = ms.map (fun m => Record.write (Record.ofMetric m)) ∧
      (ms.Pairwise fun a b => Json.utf8 a.name < Json.utf8 b.name) ∧
      ∀ name m, s.metric name = .ok m ↔ m ∈ ms ∧ m.name = name) ∧
    Saved s path d (saveStore s path d).1 (some (saveStore s path d).2) ∧
    ∀ d' result, Saved s path d d' result →
      (Kept path d d' ∧ ∀ n, result ≠ some (.ok n)) ∨
        ∃ ms, s.metrics = .ok ms ∧ Replaced ms path d d' ∧
          ∀ n, result = some (.ok n) → n = ms.length := by
  obtain ⟨apart, beside⟩ := temporaryPath_beside named
  refine ⟨apart, beside, fun ms hms => ?_, saved_saveStore s path d, fun d' result => Saved.cases named⟩
  exact ⟨lineBytes_write ms, Store.metrics_of_names sorted hms⟩

/-- A stale temporary file beside an old backup: while the new lines are being written a loss of power
may put anything into it, but the backup is the old one until all is done. -/
theorem stale_temporary_file_does_no_harm :
    let d : Directory := ⟨[("data/.kept.tmp", "stale".toUTF8), ("data/kept", "old".toUTF8)], ["data"]⟩
    let s := (Store.memory .empty).reach [.call (.set ⟨"polls", .counter 1⟩),
      .call (.set ⟨"hits", .counter 3⟩)]
    s.names.Pairwise (· < ·) ∧ fileName? "data/kept" ≠ none ∧
    (∃ d', Saved s "data/kept" d d' none ∧ d'.read? "data/.kept.tmp" = some "torn".toUTF8 ∧
      d'.read? "data/kept" = some "old".toUTF8) ∧
    ∃ d', Saved s "data/kept" d d' (some (.ok 2)) ∧ d'.read? "data/.kept.tmp" = none ∧
      d'.read? "data/kept" = some (Bytes.ofList
        (write [⟨"hits", .counter 3⟩, ⟨"polls", .counter 1⟩])) := by
  intro d s
  have sorted : s.names.Pairwise (· < ·) := Store.names_ascending .memory _
  have named : fileName? "data/kept" ≠ none := by decide
  obtain ⟨-, -, -, saves, safe⟩ := saves_are_crash_safe sorted named d
  refine ⟨sorted, named, ?_, ?_⟩
  · let empty : Directory :=
      ⟨[("data/.kept.tmp", ByteArray.empty), ("data/kept", "old".toUTF8)], ["data"]⟩
    let torn : Directory :=
      ⟨[("data/.kept.tmp", "torn".toUTF8), ("data/kept", "old".toUTF8)], ["data"]⟩
    let lines := write [⟨"hits", .counter 3⟩, ⟨"polls", .counter 1⟩]
    have temporary : temporaryPath "data/kept" = "data/.kept.tmp" := by decide
    have folder : parent "data/kept" = "data" := by decide
    have stop : steps "data/kept" ([lines].map Bytes.ofList) =
        [.makeFolders "data", .create "data/.kept.tmp"] ++ [.append "data/.kept.tmp" (Bytes.ofList lines),
          .sync "data/.kept.tmp", .rename "data/.kept.tmp" "data/kept"] := by
      rw [steps, temporary, folder, if_neg (by decide)]
      rfl
    have run : d.run [.makeFolders "data", .create "data/.kept.tmp"] = (empty, none) := rfl
    have saved : Saved s "data/kept" d torn none := by
      refine .lost rfl List.flatten_singleton stop run fun other hother => ?_
      have apart : normal other ≠ "data/.kept.tmp" := by
        rintro same
        refine hother ?_
        rw [same]
        decide
      simp only [Directory.read?, torn, empty, SortedMap.find?, List.lookup_cons, beq_false_of_ne apart]
    rcases safe torn none saved with ⟨kept, -⟩ | ⟨ms, -, replaced, -⟩
    · exact ⟨torn, saved, by decide, (kept "data/kept" (by decide)).trans (by decide)⟩
    · exact absurd replaced.temporary (by decide)
  · have ok : (saveStore s "data/kept" d).2 = .ok 2 := by decide
    rw [ok] at saves
    rcases safe _ _ saves with ⟨-, stopped⟩ | ⟨ms, metrics, replaced, -⟩
    · exact absurd rfl (stopped 2)
    · obtain rfl := Except.ok.inj metrics
      exact ⟨_, saves, replaced.temporary, replaced.backup⟩

end Backup
end Telemetry
