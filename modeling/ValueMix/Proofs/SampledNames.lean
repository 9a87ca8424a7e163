import Mathlib
import ValueMix.Proofs.CommandRuns

/-!
# Sampling by name and by text

A distribution can be sampled under its configured name or by writing down its
text. Both ways meet at the definition, and from there on a run knows nothing
but the distribution, the seed and the number of draws. So two runs that agree
in these write the same, wherever they took them from.

## Main results

* `Samples.check_eq`, `Samples.loadConfig_eq` — what a run knows of options and
  file.
* `Samples.run_eq` — the output of a run that samples with a seed.
* `sample_named_or_literal` — a name and its text are sampled alike.
-/

namespace ValueMix.CommandLine

variable {σ τ : Type} [WordSource σ] [WordSource τ]

namespace Arguments

/-- The command line asks for draws from what a text stands for. The file
states a configuration, and the options, or else the file, set a seed and a
count. -/
structure Samples (a : Arguments) (content : Option String) (file : Config)
    (text : String) (kind : Kind) (json : Bool) (seed count : UInt64) :
    Prop where
  command : a.command = .sample text kind json
  loaded : a.options.fileConfig content = .ok file
  settings : a.options.override file.sampling = ⟨some seed, count⟩

namespace Samples

variable {a : Arguments} {content : Option String} {file : Config}
  {text : String} {kind : Kind} {json : Bool} {seed count : UInt64}

theorem check_eq (h : a.Samples content file text kind json seed count)
    (hCount : 1 ≤ count) : a.check = .ok () := by
  have hFlag : a.options.count ≠ some 0 := by
    intro hZero
    have hSet := congrArg SamplingSettings.count h.settings
    rw [Options.override, hZero] at hSet
    rw [← show (0 : UInt64) = count from hSet] at hCount
    exact absurd hCount (by decide)
  rw [check, if_neg hFlag, h.command, if_neg (by simp)]

theorem loadConfig_eq (h : a.Samples content file text kind json seed count) :
    a.options.loadConfig content =
      .ok ⟨⟨some seed, count⟩, file.distributions⟩ := by
  rw [Options.loadConfig, h.loaded, ← h.settings]
  rfl

/-- What a run comes to, once its text is resolved. Behind that it knows the
seed and the count only. -/
theorem run_eq (h : a.Samples content file text kind json seed count)
    (hCount : 1 ≤ count) (unseeded : σ) :
    a.run content unseeded =
      ((file.resolve text kind).mapError .rejected).map fun m =>
        reportText m (m.report count.toNat (Xoshiro256.ofSeed seed)).1 json :=
  run_sample (h.check_eq hCount) h.loadConfig_eq h.command unseeded

end Samples

end Arguments

/-! ## Main result -/

/-- **A name and its text are sampled alike.** One run samples a configured
name, another one the text of its definition, which is no name in its own
configuration. With the same seed and count both write the same about the same
distribution, or both fail for the same cause. The kind that the first run
asks for, whatever else is configured, where seed and count are set and the
words that are there for runs without seed make no difference. -/
theorem sample_named_or_literal {a b : Arguments}
    {contentA contentB : Option String} {c d : Config} {name spec : String}
    {kind asked : Kind} {json : Bool} {seed count : UInt64}
    (hNamed : a.Samples contentA c name asked json seed count)
    (hLiteral : b.Samples contentB d spec kind json seed count)
    (hCount : 1 ≤ count)
    (hName : c.distributions.find? name = some ⟨kind, spec⟩)
    (hSpec : d.distributions.find? spec = none) (u : σ) (v : τ) :
    ((∃ m output, c.resolve name asked = .ok m ∧ d.resolve spec kind = .ok m ∧
        a.run contentA u = .ok output ∧ b.run contentB v = .ok output) ∨
      (∃ cause,
        a.run contentA u = .error (.rejected ⟨some name, spec, cause⟩) ∧
        b.run contentB v = .error (.rejected ⟨none, spec, cause⟩))) ∧
    (∀ (a' : Arguments) content' c' asked',
      a'.Samples content' c' name asked' json seed count →
      c'.distributions.find? name = some ⟨kind, spec⟩ →
      ∀ w : τ, a'.run content' w = a.run contentA u) ∧
    (∀ (b' : Arguments) content' d',
      b'.Samples content' d' spec kind json seed count →
      d'.distributions.find? spec = none →
      ∀ w : τ, b'.run content' w = b.run contentB v) := by
  have hA := Config.resolve_of_find? hName asked
  have hB := Config.resolve_of_not_find? hSpec kind
  refine ⟨?_, ?_, ?_⟩
  · rw [hNamed.run_eq hCount, hLiteral.run_eq hCount, hA, hB]
    cases hBuild : Definition.build ⟨kind, spec⟩ with
    | ok m =>
        rw [Definition.buildAs_ok hBuild, Definition.buildAs_ok hBuild]
        exact .inl ⟨m, _, rfl, rfl, rfl, rfl⟩
    | error cause =>
        rw [Definition.buildAs_error hBuild, Definition.buildAs_error hBuild]
        exact .inr ⟨cause, rfl, rfl⟩
  · intro a' content' c' asked' h hFound w
    rw [h.run_eq hCount, hNamed.run_eq hCount, hA,
      Config.resolve_of_find? hFound]
  · intro b' content' d' h hFound w
    rw [h.run_eq hCount, hLiteral.run_eq hCount, hB,
      Config.resolve_of_not_find? hFound]

/-- A name with the seed and the count in options, next to a definition that
cannot be built, and its text with the seed and the count in a file. -/
theorem sample_named_or_literal_sizes :
    let a : Arguments :=
      ⟨⟨some "mix.toml", some 7, some 3, false⟩, .sample "sizes" .word true⟩
    let b : Arguments :=
      ⟨⟨some "run.toml", none, none, false⟩, .sample "10%:1M, 64k" .size true⟩
    let contentA := some ("[distributions.sizes]\nparser = \"size\"\n" ++
      "spec = \"10%:1M, 64k\"\n[distributions.broken]\nspec = \"x\"\n")
    let contentB := some "[sampling]\nseed = 7\ncount = 3\n"
    ∃ c d, a.Samples contentA c "sizes" .word true 7 3 ∧
      b.Samples contentB d "10%:1M, 64k" .size true 7 3 ∧
      (1 : UInt64) ≤ 3 ∧
      c.distributions.find? "sizes" = some ⟨.size, "10%:1M, 64k"⟩ ∧
      d.distributions.find? "10%:1M, 64k" = none ∧
      ∃ output, a.run contentA (Xoshiro256.ofSeed 0) = .ok output ∧
        b.run contentB (Xoshiro256.ofSeed 1) = .ok output := by
  intro a b contentA contentB
  have hFileA : ((a.options.fileConfig contentA).toOption.map
      fun c => (c.sampling, c.distributions.entries)) =
      some (⟨none, 100000⟩,
        [("broken", ⟨.integer, "x"⟩), ("sizes", ⟨.size, "10%:1M, 64k"⟩)]) := by
    decide +kernel
  have hFileB : ((b.options.fileConfig contentB).toOption.map
      fun d => (d.sampling, d.distributions.entries)) =
      some (⟨some 7, 3⟩, []) := by
    decide +kernel
  obtain ⟨c, hC, hViewC⟩ := Distribution.exists_ok_of_toOption hFileA
  obtain ⟨d, hD, hViewD⟩ := Distribution.exists_ok_of_toOption hFileB
  obtain ⟨hSetC, hListC⟩ := Prod.mk.inj hViewC
  obtain ⟨hSetD, hListD⟩ := Prod.mk.inj hViewD
  have hSamplesA : a.Samples contentA c "sizes" .word true 7 3 :=
    ⟨rfl, hC, by rw [hSetC]; rfl⟩
  have hSamplesB : b.Samples contentB d "10%:1M, 64k" .size true 7 3 :=
    ⟨rfl, hD, by rw [hSetD]; rfl⟩
  have hCount : (1 : UInt64) ≤ 3 := by decide
  have hName : c.distributions.find? "sizes" = some ⟨.size, "10%:1M, 64k"⟩ :=
    Catalog.find?_of_entries hListC rfl
  have hSpec : d.distributions.find? "10%:1M, 64k" = none :=
    Catalog.find?_of_entries hListD rfl
  refine ⟨c, d, hSamplesA, hSamplesB, hCount, hName, hSpec, ?_⟩
  obtain ⟨m, hBuilt⟩ := Definition.exists_build_ok ⟨.size, "10%:1M, 64k"⟩
    (by decide +kernel)
  rcases (sample_named_or_literal hSamplesA hSamplesB hCount hName hSpec
      (Xoshiro256.ofSeed 0) (Xoshiro256.ofSeed 1)).1 with
    ⟨_, output, -, -, hRunA, hRunB⟩ | ⟨cause, hRunA, -⟩
  · exact ⟨output, hRunA, hRunB⟩
  · rw [hSamplesA.run_eq hCount, Config.resolve_of_find? hName,
      Definition.buildAs_ok hBuilt] at hRunA
    cases hRunA

end ValueMix.CommandLine
