import Mathlib
import ValueMix.Proofs.SampledNames

/-!
# What loading leaves unseen

Loading reads the file of a configuration and puts the settings of the options
over it. It does not build what the file defines, and it does not look at the
number of draws. So a definition that cannot be built is noticed only where it
is built, and a count of zero, which options must not set, can come from a file.

## Main results

* `fileConfig_eq_ok_iff` — which configurations a file states.
* `invalid_definition_noticed` — which commands notice a definition that cannot
  be built.
* `Config.count_eq_zero_iff` — which files state a count of zero.
* `empty_sampling_iff` — which command lines come to no draws at all.
-/

namespace ValueMix

/-! ## Counts in files -/

namespace SamplingSettings

/-- A value states a count of zero: it is a record with zero in the field of the
count. -/
def StatesZero (v : Toml.Value) : Prop :=
  ∃ r w, Record.ofValue? ["seed", "count"] v = some r ∧
    r.field? "count" = some w ∧ wordOfValue? w = some 0

theorem count_of_ofValue? {v : Toml.Value} {s : SamplingSettings}
    (h : ofValue? v = some s) :
    ∃ r, Record.ofValue? ["seed", "count"] v = some r ∧
      match r.field? "count" with
      | some w => wordOfValue? w = some s.count
      | none => s.count = standard.count := by
  obtain ⟨r, hRecord, h⟩ := Option.bind_eq_some_iff.1 h
  refine ⟨r, hRecord, ?_⟩
  -- whatever the seed is, the count is read behind it in the same way
  have hBehind : ∃ seed, (match r.field? "count" with
      | some w => (wordOfValue? w).bind fun n => some ⟨seed, n⟩
      | none => some ⟨seed, standard.count⟩) = some s := by
    cases hSeed : r.field? "seed" with
    | some w =>
        rw [hSeed] at h
        obtain ⟨seed, -, h⟩ := Option.bind_eq_some_iff.1 h
        exact ⟨seed, h⟩
    | none =>
        rw [hSeed] at h
        cases hPositional : r.positional with
        | true =>
            rw [hPositional] at h
            cases h
        | false =>
            rw [hPositional] at h
            exact ⟨none, h⟩
  obtain ⟨seed, hBehind⟩ := hBehind
  cases hField : r.field? "count" with
  | some w =>
      rw [hField] at hBehind
      obtain ⟨n, hWord, hEq⟩ := Option.bind_eq_some_iff.1 hBehind
      rw [← Option.some.inj hEq]
      exact hWord
  | none =>
      rw [hField] at hBehind
      rw [← Option.some.inj hBehind]

/-- The standard count is not zero, so zero has to be written. -/
theorem count_eq_zero_iff_statesZero {v : Toml.Value} {s : SamplingSettings}
    (h : ofValue? v = some s) : s.count = 0 ↔ StatesZero v := by
  obtain ⟨r, hRecord, hCount⟩ := count_of_ofValue? h
  constructor
  · intro hZero
    cases hField : r.field? "count" with
    | some w =>
        rw [hField, hZero] at hCount
        exact ⟨r, w, hRecord, hField, hCount⟩
    | none =>
        rw [hField, hZero] at hCount
        exact absurd hCount (by decide)
  · rintro ⟨r', w, hRecord', hField, hZero⟩
    obtain rfl := Option.some.inj (hRecord.symm.trans hRecord')
    rw [hField] at hCount
    exact Option.some.inj (hCount.symm.trans hZero)

end SamplingSettings

namespace Config

theorem sampling_of_read? {text : String} {c : Config}
    (h : read? text = some c) :
    ∃ entries, Toml.read? text = some entries ∧
      match entries.lookup "sampling" with
      | some v => SamplingSettings.ofValue? v = some c.sampling
      | none => c.sampling = .standard := by
  obtain ⟨entries, hRead, h⟩ := Option.bind_eq_some_iff.1 h
  refine ⟨entries, hRead, ?_⟩
  obtain ⟨r, hRecord, h⟩ := Option.bind_eq_some_iff.1 h
  have hEntries : r.field? "sampling" = entries.lookup "sampling" := by
    simp only [Record.ofValue?] at hRecord
    split at hRecord
    · rw [← Option.some.inj hRecord]
      rfl
    · cases hRecord
  have hBehind : ∀ sampling, (match r.field? "distributions" with
      | some w =>
          (Catalog.ofValue? w).bind fun catalog => some ⟨sampling, catalog⟩
      | none => some ⟨sampling, .empty⟩) = some c → c.sampling = sampling := by
    intro sampling hEq
    cases hField : r.field? "distributions" with
    | some w =>
        rw [hField] at hEq
        obtain ⟨catalog, -, hEq⟩ := Option.bind_eq_some_iff.1 hEq
        rw [← Option.some.inj hEq]
    | none =>
        rw [hField] at hEq
        rw [← Option.some.inj hEq]
  rw [← hEntries]
  cases hField : r.field? "sampling" with
  | some v =>
      rw [hField] at h
      obtain ⟨sampling, hSampling, h⟩ := Option.bind_eq_some_iff.1 h
      show SamplingSettings.ofValue? v = some c.sampling
      rw [hBehind sampling h]
      exact hSampling
  | none =>
      rw [hField] at h
      exact hBehind .standard h

/-- A file states a count of zero in its table of sampling settings. -/
def StatesZeroCount (text : String) : Prop :=
  ∃ entries v, Toml.read? text = some entries ∧
    entries.lookup "sampling" = some v ∧ SamplingSettings.StatesZero v

theorem count_eq_zero_iff {text : String} {c : Config}
    (h : read? text = some c) :
    c.sampling.count = 0 ↔ StatesZeroCount text := by
  obtain ⟨entries, hRead, hSampling⟩ := sampling_of_read? h
  constructor
  · intro hZero
    cases hField : entries.lookup "sampling" with
    | some v =>
        rw [hField] at hSampling
        exact ⟨entries, v, hRead, hField,
          (SamplingSettings.count_eq_zero_iff_statesZero hSampling).1 hZero⟩
    | none =>
        rw [hField] at hSampling
        rw [hSampling] at hZero
        exact absurd hZero (by decide)
  · rintro ⟨entries', v, hRead', hField, hZero⟩
    obtain rfl := Option.some.inj (hRead.symm.trans hRead')
    rw [hField] at hSampling
    exact (SamplingSettings.count_eq_zero_iff_statesZero hSampling).2 hZero

end Config

theorem Mixture.samples_report {σ : Type} [WordSource σ] (m : Mixture) (n : ℕ)
    (source : σ) : (m.report n source).1.samples = n := by
  cases m <;> rfl

namespace CommandLine

variable {σ : Type} [WordSource σ]

/-! ## Loading -/

/-- The configuration is the standard one without a file, and otherwise what the
file states. -/
theorem fileConfig_eq_ok_iff {o : Options} {content : Option String}
    {file : Config} :
    o.fileConfig content = .ok file ↔
      o.config = none ∧ file = .standard ∨
        ∃ path text, o.config = some path ∧ content = some text ∧
          Config.read? text = some file := by
  obtain ⟨path, seed, count, debug⟩ := o
  cases path with
  | none => simp [Options.fileConfig, eq_comm]
  | some path =>
      cases content with
      | none => simp [Options.fileConfig]
      | some text =>
          cases hRead : Config.read? text <;> simp [Options.fileConfig, hRead]

theorem loadConfig_eq_ok_iff {o : Options} {content : Option String}
    {config : Config} :
    o.loadConfig content = .ok config ↔
      ∃ file, o.fileConfig content = .ok file ∧
        config = ⟨o.override file.sampling, file.distributions⟩ := by
  rw [Options.loadConfig, Codec.bind_eq_ok_iff]
  refine exists_congr fun file => and_congr_right fun _ => ?_
  exact ⟨fun h => (Except.ok.inj h).symm, fun h => by rw [h]; rfl⟩

theorem sampleReport_samples (s : SamplingSettings) (m : Mixture)
    (unseeded : σ) :
    (sampleReport s m unseeded).samples = s.count.toNat := by
  rw [sampleReport]
  cases s.seed <;> exact m.samples_report _ _

/-! ## Counts of zero -/

/-- **Which command lines come to no draws.** The check refuses a count of zero
among the options. If no count stands there, the file decides, and if it states
zero, a report is on no draws. -/
theorem empty_sampling_iff {a : Arguments} {content : Option String}
    {config : Config} (hCheck : a.check = .ok ())
    (hLoad : a.options.loadConfig content = .ok config) (m : Mixture)
    (unseeded : σ) :
    (sampleReport config.sampling m unseeded).samples =
      config.sampling.count.toNat ∧
    (config.sampling.count = 0 ↔
      a.options.count = none ∧
        ∃ path text, a.options.config = some path ∧ content = some text ∧
          Config.StatesZeroCount text) := by
  refine ⟨sampleReport_samples _ _ _, ?_⟩
  obtain ⟨file, hFile, rfl⟩ := loadConfig_eq_ok_iff.1 hLoad
  show a.options.count.getD file.sampling.count = 0 ↔ _
  cases hFlag : a.options.count with
  | some n =>
      have hNonzero : n ≠ 0 := by
        rintro rfl
        rw [Arguments.check, if_pos hFlag] at hCheck
        cases hCheck
      simpa using hNonzero
  | none =>
      show file.sampling.count = 0 ↔ _
      rcases fileConfig_eq_ok_iff.1 hFile with ⟨hPath, rfl⟩ |
        ⟨path, text, hPath, rfl, hRead⟩
      · rw [hPath]
        simp only [reduceCtorEq, false_and, exists_false, and_false, iff_false]
        decide
      · rw [Config.count_eq_zero_iff hRead, hPath]
        simp

/-- A count among the options hides the zero of the file. -/
theorem empty_sampling_iff_hidden :
    let a : Arguments :=
      ⟨⟨some "mix.toml", none, some 4, false⟩, .sample "1, 2" .integer false⟩
    ∃ config, a.check = .ok () ∧
      a.options.loadConfig (some "[sampling]\ncount = 0\n") = .ok config ∧
      config.sampling.count ≠ 0 := by
  intro a
  have hLoads :
      ((a.options.loadConfig (some "[sampling]\ncount = 0\n")).toOption.map
        Config.sampling) = some ⟨none, 4⟩ := by decide +kernel
  obtain ⟨config, hLoad, -⟩ := Distribution.exists_ok_of_toOption hLoads
  obtain ⟨m, -⟩ :=
    Definition.exists_build_ok ⟨.integer, "1, 2"⟩ (by decide +kernel)
  have hZero :=
    (empty_sampling_iff (a := a) rfl hLoad m (Xoshiro256.ofSeed 0)).2
  refine ⟨config, rfl, hLoad, fun h => ?_⟩
  cases (hZero.1 h).1

/-- The check passes, the file states zero, and the command reports on no
draws. -/
theorem zero_count_sampled :
    let a : Arguments :=
      ⟨⟨some "mix.toml", some 1, none, false⟩, .sample "1, 2" .integer false⟩
    let content := some "[sampling]\ncount = 0\n"
    a.check = .ok () ∧
      (∃ config, a.options.loadConfig content = .ok config ∧
        config.sampling.count = 0) ∧
      (a.run content (Xoshiro256.ofSeed 0)).isOk = true := by
  intro a content
  have hLoads : ((a.options.loadConfig content).toOption.map Config.sampling) =
      some ⟨some 1, 0⟩ := by decide +kernel
  obtain ⟨config, hLoad, hSampling⟩ := Distribution.exists_ok_of_toOption hLoads
  exact ⟨rfl, ⟨config, hLoad, congrArg SamplingSettings.count hSampling⟩,
    by decide +kernel⟩

/-! ## Definitions that cannot be built -/

/-- Running a check does not look at the configuration. -/
theorem run_check_without_file {a : Arguments} {content : Option String}
    {config : Config} {spec : String} {kind : Kind} {pattern : Bool}
    (hCommand : a.command = .check spec kind pattern)
    (hCheck : a.check = .ok ())
    (hLoad : a.options.loadConfig content = .ok config) (unseeded : σ) :
    a.run content unseeded =
      Arguments.run ⟨{ a.options with config := none }, a.command⟩ none
        unseeded := by
  let b : Arguments := ⟨{ a.options with config := none }, a.command⟩
  have hCheck' : b.check = .ok () := by
    simpa [Arguments.check, b, hCommand] using hCheck
  have hLoad' : b.options.loadConfig none =
      .ok ⟨b.options.override SamplingSettings.standard, .empty⟩ := rfl
  have hSame : a.perform content unseeded = b.perform none unseeded := by
    rw [Arguments.perform_of_loaded hCheck hLoad,
      Arguments.perform_of_loaded hCheck' hLoad']
    show a.command.perform config unseeded = a.command.perform _ unseeded
    rw [hCommand]
    rfl
  rw [Arguments.run, Arguments.run, Arguments.transcript, Arguments.transcript,
    hSame]

/-- Sampling a text does not look at the definitions of other names. -/
theorem run_sample_of_agreeOutside {a : Arguments}
    {content content' : Option String}
    {c d : Config} {name text : String} {kind : Kind} {json : Bool}
    (hCommand : a.command = .sample text kind json) (hCheck : a.check = .ok ())
    (hLoad : a.options.loadConfig content = .ok c)
    (hLoad' : a.options.loadConfig content' = .ok d)
    (hAgree : c.AgreeOutside name d) (hText : text ≠ name) (unseeded : σ) :
    a.run content unseeded = a.run content' unseeded := by
  rw [Arguments.run_sample hCheck hLoad hCommand,
    Arguments.run_sample hCheck hLoad' hCommand, hAgree.resolve_eq hText,
    hAgree.sampling]

/-- **Where a definition that cannot be built is noticed.** Its file is loaded
like any other. Showing all distributions fails for the first such definition,
and sampling its name fails for it. Sampling anything else goes on as far as
that can be built, and as it does with any file that says the same but for the
definition of that name. Checking a text does not depend on the file. -/
theorem invalid_definition_noticed {a : Arguments} {path text : String}
    {file : Config} {name : String} {d : Definition} {cause : Error}
    (hCheck : a.check = .ok ()) (hPath : a.options.config = some path)
    (hRead : Config.read? text = some file)
    (hFound : file.distributions.find? name = some d)
    (hInvalid : d.build = .error cause) (unseeded : σ) :
    a.options.loadConfig (some text) =
      .ok ⟨a.options.override file.sampling, file.distributions⟩ ∧
    (a.command = .showAll → ∃ n e other, file.FirstInvalid n e other ∧
      a.run (some text) unseeded =
        .error (.invalidConfig ⟨some n, e.spec, other⟩)) ∧
    (∀ kind json, a.command = .sample name kind json →
      a.run (some text) unseeded =
        .error (.rejected ⟨some name, d.spec, cause⟩)) ∧
    (∀ other kind json, a.command = .sample other kind json →
      (∀ m, file.resolve other kind = .ok m →
        ∃ output, a.run (some text) unseeded = .ok output) ∧
      (other ≠ name → ∀ text' file', Config.read? text' = some file' →
        file.AgreeOutside name file' →
        a.run (some text) unseeded = a.run (some text') unseeded)) ∧
    (∀ spec kind pattern, a.command = .check spec kind pattern →
      a.run (some text) unseeded =
        Arguments.run ⟨{ a.options with config := none }, a.command⟩ none
          unseeded) := by
  have hLoads : ∀ {text file}, Config.read? text = some file →
      a.options.loadConfig (some text) =
        .ok ⟨a.options.override file.sampling, file.distributions⟩ :=
    fun {text file} hRead => loadConfig_eq_ok_iff.2
      ⟨file, fileConfig_eq_ok_iff.2 (.inr ⟨path, text, hPath, rfl, hRead⟩), rfl⟩
  have hLoad := hLoads hRead
  refine ⟨hLoad, ?_, ?_, ?_, ?_⟩
  · intro hCommand
    obtain ⟨n, e, other, hFirst⟩ := Config.exists_firstInvalid hFound hInvalid
    have hRefuses := Arguments.refuses_of_firstInvalid hCheck hLoad hCommand
      ⟨hFirst.found, hFirst.invalid, hFirst.first⟩
    exact ⟨n, e, other, hFirst, Arguments.run_of_refuses hRefuses unseeded⟩
  · intro kind json hCommand
    have hResolve : file.resolve name kind =
        .error ⟨some name, d.spec, cause⟩ := by
      rw [Config.resolve_of_find? hFound, Definition.buildAs_error hInvalid]
    rw [Arguments.run_sample hCheck hLoad hCommand]
    show (Except.mapError _ (file.resolve name kind)).map _ = _
    rw [hResolve]
    rfl
  · intro other kind json hCommand
    refine ⟨fun m hResolve => ?_, fun hOther text' file' hRead' hAgree => ?_⟩
    · rw [Arguments.run_sample hCheck hLoad hCommand]
      show ∃ output, (Except.mapError _ (file.resolve other kind)).map _ =
        .ok output
      rw [hResolve]
      exact ⟨_, rfl⟩
    · exact run_sample_of_agreeOutside hCommand hCheck hLoad (hLoads hRead')
        ⟨congrArg a.options.override hAgree.sampling, hAgree.find?_eq⟩ hOther
        unseeded
  · intro spec kind pattern hCommand
    exact run_check_without_file hCommand hCheck hLoad unseeded

/-- A definition that cannot be built, and one behind it that can. Sampling the
second one goes as with the second one alone. -/
theorem invalid_definition_noticed_broken :
    let a : Arguments := ⟨⟨some "mix.toml", some 1, some 2, false⟩,
      .sample "small" .word false⟩
    let small := "[distributions.small]\nspec = \"1, 2\"\n"
    let text := "[distributions.broken]\nspec = \"x\"\n" ++ small
    ∃ file file' cause m, a.check = .ok () ∧
      a.options.config = some "mix.toml" ∧
      Config.read? text = some file ∧
      file.distributions.find? "broken" = some ⟨.integer, "x"⟩ ∧
      Definition.build ⟨.integer, "x"⟩ = .error cause ∧
      Config.read? small = some file' ∧
      file.AgreeOutside "broken" file' ∧
      file.resolve "small" .word = .ok m ∧
      (∃ output, a.run (some text) (Xoshiro256.ofSeed 0) = .ok output) ∧
      a.run (some text) (Xoshiro256.ofSeed 0) =
        a.run (some small) (Xoshiro256.ofSeed 0) := by
  intro a small text
  have hView : ((Config.read? text).map fun c =>
      (c.sampling, c.distributions.entries)) =
      some (.standard,
        [("broken", ⟨.integer, "x"⟩), ("small", ⟨.integer, "1, 2"⟩)]) := by
    decide +kernel
  have hView' : ((Config.read? small).map fun c =>
      (c.sampling, c.distributions.entries)) =
      some (.standard, [("small", ⟨.integer, "1, 2"⟩)]) := by decide +kernel
  obtain ⟨file, hRead, hFile⟩ := Option.map_eq_some_iff.1 hView
  obtain ⟨file', hRead', hFile'⟩ := Option.map_eq_some_iff.1 hView'
  obtain ⟨hSampling, hList⟩ := Prod.mk.inj hFile
  obtain ⟨hSampling', hList'⟩ := Prod.mk.inj hFile'
  have hAgree : file.AgreeOutside "broken" file' := by
    refine ⟨hSampling.trans hSampling'.symm, fun n hn => ?_⟩
    rw [Catalog.find?, Catalog.find?, hList, hList', List.lookup_cons,
      beq_eq_false_iff_ne.2 hn]
  have hFound : file.distributions.find? "broken" = some ⟨.integer, "x"⟩ :=
    Catalog.find?_of_entries hList rfl
  have hSmall : file.distributions.find? "small" = some ⟨.integer, "1, 2"⟩ :=
    Catalog.find?_of_entries hList rfl
  obtain ⟨cause, hInvalid⟩ := Definition.exists_build_error ⟨.integer, "x"⟩
    (by decide +kernel)
  obtain ⟨m, hBuilt⟩ := Definition.exists_build_ok ⟨.integer, "1, 2"⟩
    (by decide +kernel)
  have hResolve : file.resolve "small" .word = .ok m := by
    rw [Config.resolve_of_find? hSmall, Definition.buildAs_ok hBuilt]
  have hNoticed := invalid_definition_noticed (a := a) rfl rfl hRead hFound
    hInvalid (Xoshiro256.ofSeed 0)
  have hSampled := hNoticed.2.2.2.1 "small" .word false rfl
  exact ⟨file, file', cause, m, rfl, rfl, hRead, hFound, hInvalid, hRead',
    hAgree, hResolve, hSampled.1 m hResolve,
    hSampled.2 (by decide) small file' hRead' hAgree⟩

/-- A file with a definition that cannot be built is loaded, and a command runs
on it. -/
theorem invalid_definition_loaded :
    let a : Arguments := ⟨⟨some "mix.toml", none, none, false⟩,
      .check "1" .integer false⟩
    let content := some "[distributions.broken]\nspec = \"x\"\n"
    (∃ config cause, a.options.loadConfig content = .ok config ∧
        config.distributions.find? "broken" = some ⟨.integer, "x"⟩ ∧
        Definition.build ⟨.integer, "x"⟩ = .error cause) ∧
      (a.run content (Xoshiro256.ofSeed 0)).isOk = true := by
  intro a content
  have hLoads : ((a.options.loadConfig content).toOption.map
      fun config => config.distributions.entries) =
      some [("broken", ⟨.integer, "x"⟩)] := by decide +kernel
  obtain ⟨config, hLoad, hList⟩ := Distribution.exists_ok_of_toOption hLoads
  obtain ⟨cause, hInvalid⟩ := Definition.exists_build_error ⟨.integer, "x"⟩
    (by decide +kernel)
  exact ⟨⟨config, cause, hLoad, Catalog.find?_of_entries hList rfl, hInvalid⟩,
    by decide +kernel⟩

end CommandLine

end ValueMix
