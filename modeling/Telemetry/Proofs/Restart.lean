import Telemetry.Collector.Session
import Telemetry.Proofs.Lines
import Telemetry.Proofs.Reopen
import Telemetry.Proofs.Save
import Telemetry.Proofs.Validity

/-! Memory survives a restart. The lines of a saved store are read back as its metrics, in the order of
their names, and replaying them into empty memory puts each at the end of what is there: nothing is
merged, nothing counts as a poll and no notice is left. So a run that is cut by restarts gives the
answers of the run without them. -/

namespace Telemetry

open Storage (Error Request Reply Visit requests)

namespace SortedMap

theorem insert_last {β : Type} {m : SortedMap β} {name : String} (h : ∀ e ∈ m, e.1 < name) (v : β) :
    m.insert name v = m ++ [(name, v)] := by
  induction m with
  | nil => rfl
  | cons head rest ih =>
    obtain ⟨n, u⟩ := head
    have hn : n < name := h (n, u) (by simp)
    rw [insert, if_neg hn.not_gt, if_neg hn.ne', ih fun e he => h e (by simp [he])]
    rfl

end SortedMap

namespace Memory

/-- Replaying a metric whose name comes after all others. -/
theorem restore_last {v : Memory} {name : String} {x : Value} (h : Valid (v ++ [(name, x)])) :
    v.restore ⟨name, x⟩ = .ok (v ++ [(name, x)]) := by
  have hlast : ∀ e ∈ v, e.1 < name := fun e he =>
    (List.pairwise_append.1 h.sorted).2.2 e he (name, x) (by simp)
  have hvalid : (Metric.mk name x).validate = .ok () := h.entries (name, x) (by simp)
  have hnone : v.find? name = none :=
    SortedMap.find?_eq_none_iff.2 fun e he => (hlast e he).ne
  rw [restore_eq_replay, replay, hvalid, ← SortedMap.insert_last hlast]
  exact merge_eq_ok_iff.2 ⟨x, rfl, Or.inl ⟨hnone, rfl⟩⟩

theorem Valid.of_append {v w : Memory} (h : Valid (v ++ w)) : v.Valid where
  sorted := (List.pairwise_append.1 h.sorted).1
  entries e he := h.entries e (List.mem_append_left _ he)

end Memory

namespace Backup

theorem readLine_write (path : String) (line : ℕ) {m : Metric} (hm : m.validate = .ok ()) :
    readLine path line (Record.write (Record.ofMetric m)) = .ok (some m) := by
  have hname := (Metric.validate_eq_ok_iff.1 hm).1
  obtain ⟨text, htext, hblank⟩ : ∃ text : String,
      String.fromUTF8? (Bytes.ofList (Record.write (Record.ofMetric m))) = some text ∧
        Text.trim text.toList ≠ [] := by
    obtain ⟨rest, ⟨⟨s, hs⟩, -⟩, hwrite⟩ := (Record.ofMetric m).exists_write_eq
    have hbrace : '\x7b'.toUInt8 :: rest = Json.utf8 (String.ofList ('\x7b' :: s.toList)) := by
      rw [hs, Json.utf8_eq_flatMap, Json.utf8_eq_flatMap, String.toList_ofList]
      rfl
    refine ⟨_, by rw [hwrite, hbrace]; exact Json.fromUTF8_utf8 _, ?_⟩
    rw [String.toList_ofList]
    rw [ne_eq, Text.trim_eq_nil_iff]
    exact fun h => Bool.false_ne_true (h _ List.mem_cons_self)
  unfold readLine
  simp only [htext, if_neg hblank, Record.parse_write (Record.isFinite_ofMetric hm),
    Record.toMetric_ofMetric hname]

theorem lineBytes_write (ms : List Metric) :
    Text.lineBytes (write ms) = ms.map fun m => Record.write (Record.ofMetric m) := by
  have hlines : write ms = (ms.map fun m => Record.write (Record.ofMetric m)).flatMap (· ++ [10]) := by
    rw [List.flatMap_map]
    rfl
  rw [hlines, Text.lineBytes_flatMap]
  · intro l hl
    obtain ⟨m, -, rfl⟩ := List.mem_map.1 hl
    exact (Record.oneLine_write _).unbroken
  · intro l hl
    obtain ⟨m, -, rfl⟩ := List.mem_map.1 hl
    rw [Record.getLast_write]
    decide

theorem replay_records (path : String) (line count : ℕ) (v w : Memory) (h : Memory.Valid (v ++ w)) :
    replay path line count (.memory v)
      (w.metrics.map fun m => Record.write (Record.ofMetric m)) =
        (.memory (v ++ w), .ok (count + w.length)) := by
  induction w generalizing line count v with
  | nil => simp [Memory.metrics, replay]
  | cons e w ih =>
    obtain ⟨name, x⟩ := e
    have hsplit : v ++ (name, x) :: w = (v ++ [(name, x)]) ++ w := by simp
    rw [hsplit] at h
    have hread := readLine_write path line (h.of_append.entries (name, x) (by simp))
    have hstore : (Store.memory v).restore ⟨name, x⟩ = .ok (.memory (v ++ [(name, x)])) := by
      rw [Store.restore, Memory.restore_last h.of_append]
      rfl
    have hmetrics : Memory.metrics ((name, x) :: w) = ⟨name, x⟩ :: Memory.metrics w := rfl
    rw [hmetrics, List.map_cons, replay]
    simp only [hread, replayMetric, hstore]
    rw [ih _ _ _ h, hsplit, List.length_cons, Nat.add_assoc, Nat.add_comm 1]

theorem restore_save {v : Memory} (hv : v.Valid) {path : String} {d d' : Directory} {n : ℕ}
    (h : saveStore (.memory v) path d = (d', .ok n)) :
    n = v.length ∧ restore path d' (.memory .empty) = (.memory v, .ok n) := by
  obtain ⟨rfl, hread, hfile⟩ := save_eq_ok h
  have hlength : v.metrics.length = v.length := List.length_map ..
  have hentry : d'.entry path = .file (Bytes.ofList (write v.metrics)) := by
    simp only [Directory.entry, hread, hfile]
    rfl
  refine ⟨hlength, ?_⟩
  rw [restore, hentry]
  simp only [Bytes.toList_ofList]
  rw [lineBytes_write, replay_records path 1 0 .empty v hv, hlength, Nat.zero_add]
  rfl

end Backup

namespace Repository

/-- Replaying the metrics of a memory, one call for each, leaves the watcher as it was. -/
theorem after_restores (v w : Memory) (h : Memory.Valid (v ++ w)) (watcher : Option Channel) :
    Repository.after ⟨.memory v, watcher⟩ (w.metrics.map .restore) = ⟨.memory (v ++ w), watcher⟩ := by
  induction w generalizing v with
  | nil => simp [Memory.metrics, after]
  | cons e w ih =>
    obtain ⟨name, x⟩ := e
    have hsplit : v ++ (name, x) :: w = (v ++ [(name, x)]) ++ w := by simp
    rw [hsplit] at h
    have hcall : (Repository.mk (.memory v) watcher).call (.restore ⟨name, x⟩) =
        (⟨.memory (v ++ [(name, x)]), watcher⟩, .ok ()) := by
      rw [call_eq_ok_iff, apply, restore, Store.restore, Memory.restore_last h.of_append]
      rfl
    have hmetrics : Memory.metrics ((name, x) :: w) = ⟨name, x⟩ :: Memory.metrics w := rfl
    rw [hmetrics, List.map_cons, after_cons, hcall, ih _ h, hsplit]

end Repository

namespace Store

/-- What a run of calls leaves. -/
def asked (s : Store) (qs : List Request) : Store := qs.foldl (fun s q => (s.answer q).1) s

theorem answer_valid {v : Memory} (hv : v.Valid) (q : Request) :
    ∃ v' : Memory, v'.Valid ∧ ((memory v).answer q).1 = memory v' := by
  cases q with
  | write w =>
    have hnext : ((memory v).answer (.write w)).1 = (memory v).next (.call w) := by
      rw [answer, next]
      cases (memory v).apply w <;> rfl
    obtain ⟨v', es, hv', hposted⟩ := next_posted (memory v) v (.call w)
    exact ⟨v', hposted.valid_values hv, hnext.trans hv'⟩
  | metric name => exact ⟨v, hv, rfl⟩
  | metrics => exact ⟨v, hv, rfl⟩

end Store

namespace Collector

/-- Calls to a store in memory, their answers and the store they leave. At a restart the store is
saved, whatever happened to the files before, and a new one is restored from the backup. -/
inductive Session (c : Config) : Store → List Visit → List (Except Storage.Error Reply) → Store → Prop
  | ended (s : Store) : Session c s [] [] s
  | asked {s s' : Store} {q : Request} {visits : List Visit} {replies : List (Except Storage.Error Reply)}
      (rest : Session c (s.answer q).1 visits replies s') :
      Session c s (.ask q :: visits) ((s.answer q).2 :: replies) s'
  | restarted {s s' : Store} {d d' : Directory} {n : ℕ} {visits : List Visit}
      {replies : List (Except Storage.Error Reply)}
      (saved : Backup.saveStore s c.storeFile.value d = (d', .ok n))
      (rest : Session c (restored c d' (.memory .empty)) visits replies s') :
      Session c s (.reopen :: visits) replies s'

theorem Session.eq_asked {c : Config} (hc : c.restore.value = true) {v : Memory} (hv : v.Valid)
    {visits : List Visit} {replies : List (Except Storage.Error Reply)} {s' : Store}
    (h : Session c (.memory v) visits replies s') :
    replies = (Store.memory v).answers (requests visits) ∧
      s' = (Store.memory v).asked (requests visits) := by
  generalize hs : Store.memory v = s at h
  induction h generalizing v with
  | ended s => exact ⟨rfl, rfl⟩
  | @asked s s' q visits replies rest ih =>
    subst hs
    obtain ⟨w, hw, hanswer⟩ := Store.answer_valid hv q
    obtain ⟨hreplies, hstore⟩ := ih hw hanswer.symm
    exact ⟨congrArg _ hreplies, hstore⟩
  | restarted saved rest ih =>
    subst hs
    obtain ⟨-, hrestore⟩ := Backup.restore_save hv saved
    rw [restored, if_pos hc, hrestore] at ih
    exact ih hv rfl

/-- Restarts change nothing. Every answer of a run that is cut by restarts, each with a save that
succeeded, is that of the run without them, and so is the store at the end. What a store became by
any calls and replays is what its backup gives back, gauges to the last bit, with the number of its
metrics; replaying these leaves the watcher of the repository alone. -/
theorem restarts_are_transparent {c : Config} (hc : c.restore.value = true) :
    (∀ {visits : List Visit} {replies : List (Except Storage.Error Reply)} {s : Store},
      Session c (.memory .empty) visits replies s →
        replies = (Store.memory .empty).answers (requests visits) ∧
          s = (Store.memory .empty).asked (requests visits)) ∧
    ∀ (events : List Store.Event) {path : String} {d d' : Directory} {n : ℕ},
      Backup.saveStore ((Store.memory .empty).reach events) path d = (d', .ok n) →
        Backup.restore path d' (.memory .empty) = ((Store.memory .empty).reach events, .ok n) ∧
        ∃ ms, ((Store.memory .empty).reach events).metrics = .ok ms ∧ n = ms.length ∧
          ∀ watcher, Repository.after ⟨.memory .empty, watcher⟩ (ms.map .restore) =
            ⟨(Store.memory .empty).reach events, watcher⟩ := by
  refine ⟨Session.eq_asked hc Memory.valid_empty, fun events {path d d' n} hsave => ?_⟩
  obtain ⟨v, es, hreach, hposted⟩ := Store.reach_posted (.memory .empty) .empty events
  rw [show (Store.memory .empty).reach events = .memory v from hreach] at hsave ⊢
  have hv := hposted.valid_values Memory.valid_empty
  obtain ⟨hn, hrestore⟩ := Backup.restore_save hv hsave
  refine ⟨hrestore, v.metrics, rfl, hn.trans (List.length_map ..).symm, fun watcher => ?_⟩
  exact Repository.after_restores .empty v hv watcher

/-- A name with a quote and a line break, and a zero with its sign, over two restarts. -/
theorem restarts_keep_signed_zero :
    let c : Config := ⟨⟨"localhost:8080", .builtIn, none⟩, ⟨.ofSeconds 300, .builtIn, none⟩,
      ⟨"kept", .builtIn, none⟩, ⟨true, .builtIn, none⟩, ⟨none, .builtIn, none⟩,
      ⟨none, .builtIn, none⟩, ⟨none, .builtIn, none⟩⟩
    let visits : List Visit := [.ask (.write (.set ⟨"\"\n", .gauge (.ofMagnitude true 0)⟩)), .reopen,
      .ask (.write (.set ⟨"hits", .counter 2⟩)), .reopen, .ask .metrics]
    c.restore.value = true ∧ ∃ replies s, Session c (.memory .empty) visits replies s ∧
      replies = [.ok .done, .ok .done, .ok (.metrics [⟨"\"\n", .gauge (.ofMagnitude true 0)⟩,
        ⟨pollCount, .counter 1⟩, ⟨"hits", .counter 2⟩])] := by
  intro c visits
  obtain ⟨saved, hsaved⟩ : ∃ d, Backup.saveStore ((Store.memory .empty).reach
      [.call (.set ⟨"\"\n", .gauge (.ofMagnitude true 0)⟩)]) "kept" ⟨[], [""]⟩ = (d, .ok 2) := ⟨_, rfl⟩
  have hrestored : restored c saved (.memory .empty) = (Store.memory .empty).reach _ :=
    congrArg Prod.fst ((restarts_are_transparent (c := c) rfl).2 _ hsaved).1
  obtain ⟨again, hagain⟩ : ∃ d, Backup.saveStore ((Store.memory .empty).reach
      [.call (.set ⟨"\"\n", .gauge (.ofMagnitude true 0)⟩), .call (.set ⟨"hits", .counter 2⟩)])
        "kept" ⟨[], [""]⟩ = (d, .ok 3) := ⟨_, rfl⟩
  have later : Session c ((Store.memory .empty).reach
      [.call (.set ⟨"\"\n", .gauge (.ofMagnitude true 0)⟩)])
      [.ask (.write (.set ⟨"hits", .counter 2⟩)), .reopen, .ask .metrics] _ _ :=
    .asked (.restarted hagain (.asked (.ended _)))
  rw [← hrestored] at later
  have session : Session c (.memory .empty) visits _ _ := .asked (.restarted hsaved later)
  refine ⟨rfl, _, _, session, ?_⟩
  rw [((restarts_are_transparent rfl).1 session).1]
  decide

end Collector
end Telemetry
