import Mathlib
import ValueMix.CommandLine.Run
import ValueMix.Proofs.Catalogs
import ValueMix.Proofs.Console
import ValueMix.Proofs.Equality

/-!
# Command lines that fail

Every command builds whatever it is about before it writes the first line. So
a command line either writes its whole output or fails and writes nothing.

## Main results

* `Command.settles`, `Arguments.settles` — every command attempts first and
  prints then.
* `run_sample`, `refuses_of_firstInvalid` — what sampling comes to, and how
  showing fails.
* `written_of_failure` — a command line that fails has written nothing.
-/

namespace ValueMix.CommandLine

open Console

variable {σ : Type} [WordSource σ]

/-! ## What commands print -/

/-- The text on draws from a distribution. -/
def reportText (m : Mixture) (r : Report) (json : Bool) : String :=
  if json then r.jsonLine true else page (m.text :: "" :: r.pageLines)

theorem prints_writeReport (m : Mixture) (r : Report) (json : Bool) :
    Prints (writeReport m r json) (reportText m r json) := by
  cases json with
  | true => exact prints_write _
  | false =>
      show Prints _ (page (m.text :: "" :: r.pageLines))
      rw [page, List.map_cons, List.map_cons, String.join_cons,
        String.join_cons]
      exact (prints_writeLine _).andThen
        ((prints_writeLine _).andThen (prints_writeLines _))

theorem performSample_of_resolve {config : Config} {text : String} {kind : Kind}
    {m : Mixture} (h : config.resolve text kind = .ok m) (json : Bool)
    (unseeded : σ) :
    performSample config text kind json unseeded =
      writeReport m (sampleReport config.sampling m unseeded) json := by
  rw [performSample, h]
  rfl

/-- The text on configured distributions. -/
def showText (built : List (String × Mixture)) : String :=
  (if built.isEmpty then "No distributions configured\n" else "") ++
    String.join (built.zipIdx.map fun x =>
      (if x.2 ≠ 0 then "\n" else "") ++ page (x.1.2.pageLines x.1.1))

theorem prints_show (built : List (String × Mixture)) :
    Prints (do
      if built.isEmpty then writeLine "No distributions configured"
      built.zipIdx.forM fun ((name, m), i) => do
        if i ≠ 0 then writeLine ""
        writeLines (m.pageLines name)) (showText built) := by
  refine Prints.after (prints_forM (fun x => ?_) _) (built.isEmpty = true)
    (prints_writeLine "No distributions configured")
  obtain ⟨⟨name, m⟩, i⟩ := x
  exact (prints_writeLines (m.pageLines name)).after (i ≠ 0)
    (prints_writeLine "")

/-! ## Reasons to refuse -/

/-- The failures of a command: one of what it builds cannot be built. -/
def Command.Refuses (config : Config) : Command → Failure → Prop
  | .check _ kind true, f =>
      ∃ cause, kind.allowedPattern = .error cause ∧ f = .unusablePattern cause
  | .check spec kind false, f =>
      ∃ r, Definition.buildAs ⟨kind, spec⟩ none = .error r ∧ f = .rejected r
  | .sample text kind _, f =>
      ∃ r, config.resolve text kind = .error r ∧ f = .rejected r
  | .showAll, f => ∃ r, config.buildAll = .error r ∧ f = .invalidConfig r

/-- The failures of a command line: those of the check, else those of loading
the configuration, else those of the command. -/
def Arguments.Refuses (a : Arguments) (content : Option String) (f : Failure) :
    Prop :=
  a.check = .error f ∨ ∃ u, a.check = .ok u ∧
    (a.options.loadConfig content = .error f ∨
      ∃ config, a.options.loadConfig content = .ok config ∧
        a.command.Refuses config f)

theorem Command.settles (command : Command) (config : Config) (unseeded : σ) :
    Settles (command.perform config unseeded) (command.Refuses config) := by
  cases command with
  | check spec kind pattern =>
      cases pattern with
      | true => exact settles_attempt fun text => ⟨_, prints_writeLine text⟩
      | false => exact settles_attempt fun m => ⟨_, prints_writeLines _⟩
  | sample text kind json =>
      exact settles_attempt fun m => ⟨_, prints_writeReport m _ json⟩
  | showAll => exact settles_attempt fun built => ⟨_, prints_show built⟩

theorem Arguments.settles (a : Arguments) (content : Option String)
    (unseeded : σ) :
    Settles (a.perform content unseeded) (a.Refuses content) :=
  settles_bind fun _ => settles_bind fun config =>
    a.command.settles config unseeded

namespace Arguments

variable {a : Arguments} {content : Option String}

/-- Behind a check that passes and a configuration that is loaded, there is only
the command. -/
theorem perform_of_loaded {config : Config} (hCheck : a.check = .ok ())
    (hLoad : a.options.loadConfig content = .ok config) (unseeded : σ) :
    a.perform content unseeded = a.command.perform config unseeded := by
  rw [perform, hCheck, attempt_ok_bind, hLoad, attempt_ok_bind]

theorem refuses_of_loaded {config : Config} {f : Failure}
    (hCheck : a.check = .ok ())
    (hLoad : a.options.loadConfig content = .ok config)
    (h : a.command.Refuses config f) : a.Refuses content f :=
  .inr ⟨(), hCheck, .inr ⟨config, hLoad, h⟩⟩

theorem run_of_prints {unseeded : σ} {text : String}
    (h : Prints (a.perform content unseeded) text) :
    a.run content unseeded = .ok text := by
  rw [run, transcript, h.transcript_eq]

theorem run_of_refuses {f : Failure} (h : a.Refuses content f) (unseeded : σ) :
    a.run content unseeded = .error f := by
  have hFailure := ((a.settles content unseeded).transcript_spec f).1.2 h
  rw [run, transcript, hFailure]

/-- A sampling run comes to the report on what its text stands for, or fails as
resolving the text does. -/
theorem run_sample {config : Config} {text : String} {kind : Kind} {json : Bool}
    (hCheck : a.check = .ok ())
    (hLoad : a.options.loadConfig content = .ok config)
    (hCommand : a.command = .sample text kind json) (unseeded : σ) :
    a.run content unseeded =
      ((config.resolve text kind).mapError .rejected).map fun m =>
        reportText m (sampleReport config.sampling m unseeded) json := by
  cases hResolve : config.resolve text kind with
  | ok m =>
      refine run_of_prints ?_
      rw [perform_of_loaded hCheck hLoad, hCommand]
      show Prints (performSample config text kind json unseeded) _
      rw [performSample_of_resolve hResolve]
      exact prints_writeReport m _ json
  | error r =>
      refine run_of_refuses (refuses_of_loaded hCheck hLoad ?_) unseeded
      rw [hCommand]
      exact ⟨r, hResolve, rfl⟩

/-- Showing all distributions fails for the first one that cannot be built. -/
theorem refuses_of_firstInvalid {config : Config} {name : String}
    {d : Definition} {cause : Error} (hCheck : a.check = .ok ())
    (hLoad : a.options.loadConfig content = .ok config)
    (hCommand : a.command = .showAll) (h : config.FirstInvalid name d cause) :
    a.Refuses content (.invalidConfig ⟨some name, d.spec, cause⟩) := by
  refine refuses_of_loaded hCheck hLoad ?_
  rw [hCommand]
  exact ⟨_, Config.buildAll_eq_error_iff.2 ⟨name, d, cause, h, rfl⟩, rfl⟩

end Arguments

/-! ## Main result -/

/-- **A command line that fails has written nothing.** It fails if the check,
loading or building fails, and then for that reason. In particular, showing
all distributions shows none if any of them cannot be built. -/
theorem written_of_failure (a : Arguments) (content : Option String)
    (unseeded : σ) :
    (∀ f, (a.transcript content unseeded).failure = some f ↔
      a.Refuses content f) ∧
    (∀ f, (a.transcript content unseeded).failure = some f →
      (a.transcript content unseeded).written = "") ∧
    ∀ config name d cause, a.command = .showAll → a.check = .ok () →
      a.options.loadConfig content = .ok config →
      config.distributions.find? name = some d → d.build = .error cause →
      ∃ r, a.transcript content unseeded = ⟨"", some (.invalidConfig r)⟩ := by
  have hSpec := (a.settles content unseeded).transcript_spec
  refine ⟨fun f => (hSpec f).1, fun f => (hSpec f).2, ?_⟩
  intro config name d cause hShow hCheck hLoad hFound hBuild
  obtain ⟨n, e, other, hFirst⟩ := Config.exists_firstInvalid hFound hBuild
  have hRefuses := Arguments.refuses_of_firstInvalid hCheck hLoad hShow hFirst
  have hFailure := (hSpec _).1.2 hRefuses
  exact ⟨_, Transcript.ext ((hSpec _).2 hFailure) hFailure⟩

/-- Showing a distribution that can be built and one behind it that cannot. -/
theorem written_of_failure_halfway :
    let a : Arguments := ⟨⟨some "mix.toml", none, none, false⟩, .showAll⟩
    let content :=
      some "[distributions.a]\nspec = \"1\"\n[distributions.b]\nspec = \"x\"\n"
    a.check = .ok () ∧
      (∃ config m cause, a.options.loadConfig content = .ok config ∧
        config.distributions.find? "a" = some ⟨.integer, "1"⟩ ∧
        Definition.build ⟨.integer, "1"⟩ = .ok m ∧
        config.distributions.find? "b" = some ⟨.integer, "x"⟩ ∧
        Definition.build ⟨.integer, "x"⟩ = .error cause) ∧
      ∃ r, a.transcript content (Xoshiro256.ofSeed 0) =
        ⟨"", some (.invalidConfig r)⟩ := by
  intro a content
  have hCheck : a.check = .ok () := rfl
  have hLoads : ((a.options.loadConfig content).toOption.map
      fun config => config.distributions.entries) =
      some [("a", ⟨.integer, "1"⟩), ("b", ⟨.integer, "x"⟩)] := by decide +kernel
  obtain ⟨config, hLoad, hEntries⟩ := Distribution.exists_ok_of_toOption hLoads
  have hFirst : config.distributions.find? "a" = some ⟨.integer, "1"⟩ :=
    Catalog.find?_of_entries hEntries rfl
  have hSecond : config.distributions.find? "b" = some ⟨.integer, "x"⟩ :=
    Catalog.find?_of_entries hEntries rfl
  obtain ⟨m, hBuilt⟩ := Definition.exists_build_ok ⟨.integer, "1"⟩
    (by decide +kernel)
  obtain ⟨cause, hRefused⟩ := Definition.exists_build_error ⟨.integer, "x"⟩
    (by decide +kernel)
  refine ⟨hCheck, ⟨config, m, cause, hLoad, hFirst, hBuilt, hSecond, hRefused⟩,
    ?_⟩
  exact
    (written_of_failure a content (Xoshiro256.ofSeed 0)).2.2 config "b" _ cause
    rfl hCheck hLoad hSecond hRefused

end ValueMix.CommandLine
