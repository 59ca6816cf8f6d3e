import Telemetry.Agent.Pool
import Telemetry.Proofs.Configuration

/-! What bounds the settings of an agent. A command line keeps what each of its flags keeps, so the
number of workers it asks for is within bounds, and so is that of the variable. The file is asked for
a number that is not zero and nothing else. -/

namespace Telemetry

namespace CommandLine

variable {σ : Type} {flags : List (Flag σ)} {P : σ → Prop} {s s' : State σ}

/-- The options satisfy `P`, and a flag that waits for its value is one of `flags`. -/
structure State.Keeps (flags : List (Flag σ)) (P : σ → Prop) (s : State σ) : Prop where
  options : P s.options
  waiting : ∀ w ∈ s.waiting, w.1 ∈ flags

theorem State.react_eq_ok {f : Flag σ} {value : Option String} (h : s.react f value = .ok s') :
    ∃ raw o, f.store raw s.options = .ok o ∧ s' = ⟨o, f.long :: s.given, s.waiting⟩ := by
  have stored (raw : String) (h : (if f.long ∈ s.given then Except.error Error.argumentConflict
      else (f.store raw s.options).bind fun o => .ok ⟨o, f.long :: s.given, s.waiting⟩) = .ok s') :
      ∃ raw o, f.store raw s.options = .ok o ∧ s' = ⟨o, f.long :: s.given, s.waiting⟩ := by
    split_ifs at h
    obtain ⟨o, ho, h⟩ := bind_eq_ok_iff.1 h
    exact ⟨raw, o, ho, (Except.ok.inj h).symm⟩
  unfold State.react at h
  cases harity : f.arity with
  | none =>
    rw [harity] at h
    exact stored "" h
  | one =>
    rw [harity] at h
    cases value with
    | none => cases h
    | some v => exact stored v h
  | optional default =>
    rw [harity] at h
    cases value with
    | none => exact stored default h
    | some v => exact stored v h

section

variable (hstore : ∀ f ∈ flags, ∀ raw o o', P o → f.store raw o = .ok o' → P o')

include hstore

theorem State.Keeps.react (hs : s.Keeps flags P) {f : Flag σ} (hf : f ∈ flags)
    {value : Option String} (h : s.react f value = .ok s') : s'.Keeps flags P := by
  obtain ⟨raw, o, ho, rfl⟩ := State.react_eq_ok h
  exact ⟨hstore f hf raw _ o hs.options ho, hs.waiting⟩

theorem State.Keeps.settle (hs : s.Keeps flags P) (h : s.settle = .ok s') : s'.Keeps flags P := by
  unfold State.settle at h
  cases hw : s.waiting with
  | none =>
    rw [hw] at h
    obtain rfl := Except.ok.inj h
    exact hs
  | some w =>
    rw [hw] at h
    have rest : State.Keeps flags P { s with waiting := none } := ⟨hs.options, by simp⟩
    exact rest.react hstore (hs.waiting w hw) h

theorem State.Keeps.meet (hs : s.Keeps flags P) {f : Flag σ} (hf : f ∈ flags)
    {attached : Option String} (h : s.meet f attached = .ok s') : s'.Keeps flags P := by
  obtain ⟨s₁, hsettle, h⟩ := bind_eq_ok_iff.1 h
  have hs₁ := hs.settle hstore hsettle
  split at h
  · exact hs₁.react hstore hf h
  · exact hs₁.react hstore hf h
  · obtain rfl := Except.ok.inj h
    refine ⟨hs₁.options, fun w hw => ?_⟩
    obtain rfl := Option.some.inj hw
    exact hf

theorem State.Keeps.long (hs : s.Keeps flags P) {body : List Char}
    (h : s.long flags body = .ok s') : s'.Keeps flags P := by
  unfold State.long at h
  simp only at h
  split at h
  · cases h
  · next f hfind =>
    split at h
    · cases h
    · exact hs.meet hstore (List.mem_of_find?_eq_some hfind) h

theorem State.Keeps.shorts (hs : s.Keeps flags P) {body : List Char}
    (h : s.shorts flags body = .ok s') : s'.Keeps flags P := by
  induction body generalizing s with
  | nil =>
    obtain rfl := Except.ok.inj h
    exact hs
  | cons c rest ih =>
    unfold State.shorts at h
    split at h
    · cases h
    · next f hfind =>
      have hf := List.mem_of_find?_eq_some hfind
      split at h
      · obtain ⟨s₁, hmeet, h⟩ := bind_eq_ok_iff.1 h
        exact ih (hs.meet hstore hf hmeet) h
      all_goals exact hs.meet hstore hf h

theorem State.Keeps.step (hs : s.Keeps flags P) {arg : String}
    (h : s.step flags arg = .ok s') : s'.Keeps flags P := by
  unfold State.step at h
  split at h
  · exact hs.long hstore h
  · exact hs.shorts hstore h
  · unfold State.plain at h
    split at h
    · next f hw =>
      obtain rfl := Except.ok.inj h
      refine ⟨hs.options, fun w hw' => ?_⟩
      obtain rfl := Option.some.inj hw'
      exact hs.waiting (f, none) hw
    · cases h

theorem State.Keeps.run (hs : s.Keeps flags P) {args : List String}
    (h : CommandLine.run flags s args = .ok s') : s'.Keeps flags P := by
  induction args generalizing s with
  | nil => exact hs.settle hstore h
  | cons arg args ih =>
    unfold CommandLine.run at h
    split_ifs at h
    · exact hs.settle hstore h
    · obtain ⟨s₁, hstep, h⟩ := bind_eq_ok_iff.1 h
      exact ih (hs.step hstore hstep) h

end

theorem parse_keeps (hstore : ∀ f ∈ flags, ∀ raw o o', P o → f.store raw o = .ok o' → P o')
    {start o : σ} (hstart : P start) {args : List String} (h : parse flags start args = .ok o) :
    P o := by
  obtain ⟨s, hrun, h⟩ := bind_eq_ok_iff.1 h
  obtain rfl := Except.ok.inj h
  have every : ∀ f ∈ flags ++ standardFlags σ, ∀ raw o o', P o → f.store raw o = .ok o' → P o' := by
    intro f hf raw o o' ho h
    rcases List.mem_append.1 hf with hf | hf
    · exact hstore f hf raw o o' ho h
    · -- asking for help or for the version leaves no options
      simp only [standardFlags, List.mem_cons, List.not_mem_nil, or_false] at hf
      rcases hf with rfl | rfl <;> cases h
  have begun : State.Keeps (flags ++ standardFlags σ) P ⟨start, [], none⟩ := ⟨hstart, by simp⟩
  exact (begun.run every hrun).options

/-- Whatever a flag stores keeps what holds of the options. -/
def Preserves (P : σ → Prop) (store : String → σ → Except Error σ) : Prop :=
  ∀ raw o o', P o → store raw o = .ok o' → P o'

theorem preserves_text {set : String → σ → σ} (hset : ∀ v o, P o → P (set v o)) :
    Preserves P (text set) := by
  intro raw o o' ho h
  rw [← Except.ok.inj h]
  exact hset raw o ho

theorem preserves_path {set : String → σ → σ} (hset : ∀ v o, P o → P (set v o)) :
    Preserves P (path set) := by
  intro raw o o' ho h
  unfold path at h
  split_ifs at h
  rw [← Except.ok.inj h]
  exact hset raw o ho

theorem preserves_duration {set : Duration → σ → σ}
    (hset : ∀ raw d, Duration.parse? raw = some d → ∀ o, P o → P (set d o)) :
    Preserves P (duration set) := by
  intro raw o o' ho h
  unfold duration at h
  split at h
  · next d hd =>
    rw [← Except.ok.inj h]
    exact hset raw d hd o ho
  · cases h

theorem preserves_number {least most : ℕ} {set : ℕ → σ → σ}
    (hset : ∀ n, least ≤ n → n ≤ most → ∀ o, P o → P (set n o)) :
    Preserves P (number least most set) := by
  intro raw o o' ho h
  unfold number at h
  split at h
  · next n _ =>
    split_ifs at h with hn
    rw [← Except.ok.inj h]
    exact hset n hn.1 hn.2 o ho
  · cases h

theorem preserves_truth {set : Bool → σ → σ} (hset : ∀ v o, P o → P (set v o)) :
    Preserves P (truth set) := by
  intro raw o o' ho h
  unfold truth at h
  split_ifs at h
  all_goals
    rw [← Except.ok.inj h]
    exact hset _ o ho

end CommandLine

namespace Agent

/-- The number of workers that the command line asks for, if any, is within bounds. -/
def Options.Bounded (o : Options) : Prop := ∀ n ∈ o.rateLimit, 1 ≤ n ∧ n ≤ maxRateLimit

open CommandLine in
theorem Options.bounded_parse {args : List String} {o : Options} (h : parse args = .ok o) :
    o.Bounded := by
  refine parse_keeps (P := Options.Bounded) ?_ (by simp [Options.Bounded]) h
  simp only [flags, List.forall_mem_cons]
  refine ⟨preserves_path fun _ _ h => h, preserves_text fun _ _ h => h,
    preserves_duration fun _ _ _ _ h => h, preserves_duration fun _ _ _ _ h => h,
    preserves_text fun _ _ h => h, preserves_number fun n hleast hmost o _ => ?_,
    preserves_path fun _ _ h => h, preserves_text fun _ _ h => h, by simp⟩
  simp [Bounded, hleast, hmost]

theorem count?_eq_some {least most n : ℕ} {raw : String}
    (h : Environment.count? least most raw = some n) : least ≤ n ∧ n ≤ most := by
  simpa using (Option.filter_eq_some_iff.1 h).2

/-- Only a file gives more workers than there may be. -/
theorem Config.rateLimit_layered {o : Options} (ho : o.Bounded) (env : Environment)
    (file : FileOptions) (address : String) :
    1 ≤ (layered o env file address).rateLimit.value ∧
      (maxRateLimit < (layered o env file address).rateLimit.value ↔
        ∃ n, file.rateLimit = some n ∧ maxRateLimit < n ∧
          (layered o env file address).rateLimit = .of .configFile n) := by
  have hback {r : Sourced ℕ} (h : ∃ n, file.rateLimit = some n ∧ maxRateLimit < n ∧
      r = .of .configFile n) : maxRateLimit < r.value := by
    obtain ⟨n, -, hn, rfl⟩ := h
    exact hn
  have within {r : Sourced ℕ} (h : 1 ≤ r.value ∧ r.value ≤ maxRateLimit) :
      1 ≤ r.value ∧ (maxRateLimit < r.value ↔ ∃ n, file.rateLimit = some n ∧ maxRateLimit < n ∧
        r = .of .configFile n) :=
    ⟨h.1, fun hlt => absurd hlt (Nat.not_lt.2 h.2), hback⟩
  simp only [layered, Layers.highest]
  cases hheld : env.held "RATE_LIMIT" (Environment.count? 1 maxRateLimit) with
  | some e =>
    obtain ⟨raw, -, h⟩ := Option.bind_eq_some_iff.1 hheld
    obtain ⟨n, hn, rfl⟩ := Option.map_eq_some_iff.1 h
    exact within (count?_eq_some hn)
  | none =>
    cases hflag : o.rateLimit with
    | some n => exact within (ho n hflag)
    | none =>
      cases hfile : file.rateLimit.filter (0 < ·) with
      | none => exact within (by decide)
      | some n =>
        obtain ⟨hn, hpos⟩ := Option.filter_eq_some_iff.1 hfile
        have one : 0 < n := by simpa using hpos
        exact ⟨one, fun hlt => ⟨n, hn, hlt, rfl⟩, hback⟩

theorem unlessZero_ne_zero {l : Layers Duration} (h : l.standard ≠ .zero) :
    l.unlessZero.value ≠ .zero := by
  unfold Layers.unlessZero
  split_ifs with hzero
  · exact h
  · exact hzero

/-- An agent that starts has intervals that are not zero and at least one worker; and it has more
workers than there may be only if its file says so, which nothing checks. -/
theorem Config.accepted_settings_are_bounded_but_by_files {args : List String} {o : Options}
    {d : Directory} {env : Environment} {c : Config} (hargs : Options.parse args = .ok o)
    (h : resolve d o env = .ok c) :
    c.pollInterval.value ≠ .zero ∧ c.reportInterval.value ≠ .zero ∧ 1 ≤ c.rateLimit.value ∧
      (∀ Job Outcome : Type, (Pool.start c.rateLimit.value : Pool Job Outcome).size =
        c.rateLimit.value) ∧
      (maxRateLimit < c.rateLimit.value ↔
        ∃ file n, Settings.Says d FileOptions.ofJson? {} (Settings.selected env o.config) file ∧
          file.rateLimit = some n ∧ maxRateLimit < n ∧ c.rateLimit = .of .configFile n) := by
  obtain ⟨file, v, hsays, -, -, -, rfl⟩ := ((exact_resolve (fun _ => True) d o env).ok trivial c).1 h
  obtain ⟨one, most⟩ := rateLimit_layered (Options.bounded_parse hargs) env file v
  have poll : defaultPollInterval ≠ .zero := by decide
  have report : defaultReportInterval ≠ .zero := by decide
  refine ⟨unlessZero_ne_zero poll, unlessZero_ne_zero report, one, fun _ _ => ?_, fun hlt => ?_, ?_⟩
  · simp [Pool.size, Pool.start, one]
  · obtain ⟨n, hn⟩ := most.1 hlt
    exact ⟨file, n, hsays, hn⟩
  · rintro ⟨-, n, -, -, hn, hrate⟩
    rw [hrate]
    exact hn

/-- A file that asks for five thousand workers gets them. -/
theorem Config.five_thousand_workers_start :
    let d : Directory := ⟨[("agent.json", "\x7b\"rate_limit\":5000\x7d".toUTF8)], []⟩
    ∃ o c, Options.parse ["-c", "agent.json"] = .ok o ∧ resolve d o ⟨[], ""⟩ = .ok c ∧
      maxRateLimit < c.rateLimit.value ∧ (Pool.start c.rateLimit.value : Pool ℕ ℕ).size = 5000 ∧
      c.pollInterval.value ≠ .zero ∧ c.reportInterval.value ≠ .zero := by
  intro d
  have hargs : Options.parse ["-c", "agent.json"] = .ok { config := some "agent.json" } := rfl
  obtain ⟨c, h, hrate⟩ : ∃ c, resolve d { config := some "agent.json" } ⟨[], ""⟩ = .ok c ∧
      c.rateLimit = .of .configFile 5000 := ⟨_, rfl, rfl⟩
  obtain ⟨poll, report, -, size, -⟩ := accepted_settings_are_bounded_but_by_files hargs h
  refine ⟨_, c, hargs, h, ?_, ?_, poll, report⟩
  · rw [hrate]
    decide
  · rw [size, hrate]
    rfl

end Agent
end Telemetry
