import HftSdk.Common.Types
import HftSdk.Lib.Run
import Mathlib.Algebra.Group.Nat.Even
import Mathlib.Data.Finmap
import Mathlib.Data.Rat.Floor

/-!
# The latency model

`latency/latency_model.hpp` and its `.cpp` file. The doubles and `<random>` are parameters. What they
promise is that an engine's stream is a function of its seed, and that a normal distribution makes its
variates in pairs: it holds back the second one until it is called again. The default client profile,
which only `get_client_profile` reads, is left out.

`set_seed` seeds the engine and leaves the distribution alone, so a variate that is held back outlives
it. `set_seed_replays` says after which histories a reseeded model replays what a new one returns.
-/

namespace HftSdk

/-- The doubles and their arithmetic, `std::mt19937_64` and the distributions. -/
structure Stdlib where
  Double : Type
  literal : ℚ → Double
  add : Double → Double → Double
  sub : Double → Double → Double
  mul : Double → Double → Double
  div : Double → Double → Double
  lt : Double → Double → Bool
  ofUInt64 : UInt64 → Double
  toUInt64 : Double → UInt64
  Engine : Type
  seeded : UInt64 → Engine
  uniform : Engine → Double × Engine
  exponential : Engine → Double × Engine
  /-- A variate, the one that is held back, and the engine after both. -/
  normals : Engine → Double × Double × Engine

def Stdlib.max (lib : Stdlib) (a b : lib.Double) : lib.Double := if lib.lt a b then b else a

structure LatencyProfile (lib : Stdlib) where
  meanNs : lib.Double := lib.literal 5000
  stddevNs : lib.Double := lib.literal 1000
  p99Ns : lib.Double := lib.literal 30000
  p999Ns : lib.Double := lib.literal 100000
  tailProb : lib.Double := lib.literal (1 / 100)
  minNs : lib.Double := lib.literal 500

structure LatencyBreakdown where
  networkInboundNs : UInt64 := 0
  matchingEngineNs : UInt64 := 0
  networkOutboundNs : UInt64 := 0
  mdDisseminationNs : UInt64 := 0
  totalNs : UInt64 := 0
deriving DecidableEq

structure LatencyModel (lib : Stdlib) where
  seed : UInt64
  rng : lib.Engine
  /-- The variate that the normal distribution holds back. -/
  normalDist : Option lib.Double := none
  networkProfile : LatencyProfile lib
  matchingProfile : LatencyProfile lib
  mdProfile : LatencyProfile lib
  clientProfiles : Finmap fun _ : TraderId => LatencyProfile lib := ∅
  samplesGenerated : ℕ := 0

namespace LatencyModel

variable (lib : Stdlib)

def construct (seed : UInt64) : LatencyModel lib where
  seed := seed
  rng := lib.seeded seed
  networkProfile :=
    ⟨lib.literal 5000, lib.literal 1000, lib.literal 30000, lib.literal 100000,
      lib.literal (1 / 100), lib.literal 500⟩
  matchingProfile :=
    ⟨lib.literal 500, lib.literal 100, lib.literal 2000, lib.literal 10000,
      lib.literal (5 / 1000), lib.literal 100⟩
  mdProfile :=
    ⟨lib.literal 2000, lib.literal 500, lib.literal 10000, lib.literal 50000,
      lib.literal (1 / 100), lib.literal 200⟩

variable {lib} (m : LatencyModel lib)

/-- `normal_dist_(rng_)`. -/
def drawNormal : lib.Double × LatencyModel lib :=
  match m.normalDist with
  | some z => (z, { m with normalDist := none })
  | none =>
    let (z, saved, rng) := lib.normals m.rng
    (z, { m with rng, normalDist := some saved })

def sampleGaussianTail (profile : LatencyProfile lib) : lib.Double × LatencyModel lib :=
  let (u, rng) := lib.uniform m.rng
  let m := { m with rng }
  if lib.lt profile.tailProb u then
    let (z, m) := m.drawNormal
    (lib.add profile.meanNs (lib.mul z profile.stddevNs), m)
  else
    let tailScale := lib.div (lib.sub profile.p99Ns profile.meanNs) (lib.literal (23 / 10))
    let (e, rng) := lib.exponential m.rng
    let tailVal := lib.mul e tailScale
    (lib.add profile.meanNs tailVal, { m with rng })

def sample (profile : LatencyProfile lib) : UInt64 × LatencyModel lib :=
  let m := { m with samplesGenerated := m.samplesGenerated + 1 }
  let (val, m) := m.sampleGaussianTail profile
  (lib.toUInt64 (lib.max val profile.minNs), m)

/-- The profile that network latencies of a client are sampled from. -/
def clientProfile (traderId : TraderId) : LatencyProfile lib :=
  (m.clientProfiles.lookup traderId).getD m.networkProfile

def sampleNetworkLatency (traderId : TraderId) : UInt64 × LatencyModel lib :=
  m.sample (m.clientProfile traderId)

def sampleMatchingLatency : UInt64 × LatencyModel lib := m.sample m.matchingProfile

def sampleMdLatency : UInt64 × LatencyModel lib := m.sample m.mdProfile

def sampleRoundTrip (traderId : TraderId) : LatencyBreakdown × LatencyModel lib :=
  let (networkInboundNs, m) := m.sampleNetworkLatency traderId
  let (matchingEngineNs, m) := m.sampleMatchingLatency
  let (networkOutboundNs, m) := m.sampleNetworkLatency traderId
  let (mdDisseminationNs, m) := m.sampleMdLatency
  let totalNs := networkInboundNs + matchingEngineNs + networkOutboundNs
  ({ networkInboundNs, matchingEngineNs, networkOutboundNs, mdDisseminationNs, totalNs }, m)

def addJitter (baseNs : UInt64) (jitterFraction : lib.Double) : UInt64 × LatencyModel lib :=
  let (z, m) := m.drawNormal
  let jitter := lib.mul (lib.mul z (lib.ofUInt64 baseNs)) jitterFraction
  let result := lib.add (lib.ofUInt64 baseNs) jitter
  (lib.toUInt64 (lib.max result (lib.literal 0)), m)

def setSeed (seed : UInt64) : LatencyModel lib := { m with seed, rng := lib.seeded seed }

/-! ## Calls -/

/-- The calls that sample. -/
inductive Sampling (lib : Stdlib)
  | networkLatency (traderId : TraderId)
  | matchingLatency
  | mdLatency
  | roundTrip (traderId : TraderId)
  | sample (profile : LatencyProfile lib)
  | addJitter (baseNs : UInt64) (jitterFraction : lib.Double)

/-- What they return. -/
inductive Sampled
  | ns (ns : UInt64)
  | breakdown (breakdown : LatencyBreakdown)
deriving DecidableEq

def perform : Sampling lib → Sampled × LatencyModel lib
  | .networkLatency traderId => (m.sampleNetworkLatency traderId).map .ns id
  | .matchingLatency => m.sampleMatchingLatency.map .ns id
  | .mdLatency => m.sampleMdLatency.map .ns id
  | .roundTrip traderId => (m.sampleRoundTrip traderId).map .breakdown id
  | .sample profile => (m.sample profile).map .ns id
  | .addJitter baseNs jitterFraction => (m.addJitter baseNs jitterFraction).map .ns id

/-- The calls on a model. -/
inductive Call (lib : Stdlib)
  | sampling (c : Sampling lib)
  | setClientProfile (traderId : TraderId) (profile : LatencyProfile lib)
  | setNetworkProfile (profile : LatencyProfile lib)
  | setMatchingProfile (profile : LatencyProfile lib)
  | setMdProfile (profile : LatencyProfile lib)
  | setSeed (seed : UInt64)

def step : Call lib → LatencyModel lib
  | .sampling c => (m.perform c).2
  | .setClientProfile traderId profile =>
    { m with clientProfiles := m.clientProfiles.insert traderId profile }
  | .setNetworkProfile profile => { m with networkProfile := profile }
  | .setMatchingProfile profile => { m with matchingProfile := profile }
  | .setMdProfile profile => { m with mdProfile := profile }
  | .setSeed seed => m.setSeed seed

/-- A new model with the same profiles. -/
def rebuilt (seed : UInt64) : LatencyModel lib :=
  { construct lib seed with
    networkProfile := m.networkProfile
    matchingProfile := m.matchingProfile
    mdProfile := m.mdProfile
    clientProfiles := m.clientProfiles }

/-- Reseeded, the model returns what a new one does. -/
def Replays (seed : UInt64) (calls : List (Sampling lib)) : Prop :=
  Run.outputs perform (m.setSeed seed) calls = Run.outputs perform (m.rebuilt seed) calls

/-! ## Normal variates -/

/-- The next sample from this profile takes the normal regime. -/
def normalRegime (profile : LatencyProfile lib) : Bool :=
  lib.lt profile.tailProb (lib.uniform m.rng).1

/-- The profiles that a call samples from, in order. -/
def sampledProfiles : Sampling lib → List (LatencyProfile lib)
  | .networkLatency traderId => [m.clientProfile traderId]
  | .matchingLatency => [m.matchingProfile]
  | .mdLatency => [m.mdProfile]
  | .roundTrip traderId =>
    [m.clientProfile traderId, m.matchingProfile, m.clientProfile traderId, m.mdProfile]
  | .sample profile => [profile]
  | .addJitter _ _ => []

/-- How many normal variates are drawn for samples from these profiles. -/
def normalsOfSamples : LatencyModel lib → List (LatencyProfile lib) → ℕ
  | _, [] => 0
  | m, profile :: profiles =>
    (if m.normalRegime profile then 1 else 0) + normalsOfSamples (m.sample profile).2 profiles

def normalsOfCall : Call lib → ℕ
  | .sampling (.addJitter _ _) => 1
  | .sampling c => m.normalsOfSamples (m.sampledProfiles c)
  | _ => 0

/-- How many normal variates are drawn in a history. -/
def normalsDrawn : LatencyModel lib → List (Call lib) → ℕ
  | _, [] => 0
  | m, call :: calls => m.normalsOfCall call + normalsDrawn (m.step call) calls

/-- What `k` normal variates make of the one that is held back. -/
def Drawn (k : ℕ) (m m' : LatencyModel lib) : Prop :=
  m'.normalDist = none ↔ (Even k ↔ m.normalDist = none)

theorem Drawn.of_eq {m m' : LatencyModel lib} (h : m'.normalDist = m.normalDist) :
    Drawn 0 m m' := by
  unfold Drawn
  rw [h]
  simp

theorem Drawn.trans {k k' : ℕ} {m m' m'' : LatencyModel lib} (h : Drawn k m m')
    (h' : Drawn k' m' m'') : Drawn (k + k') m m'' := by
  unfold Drawn at h h' ⊢
  rw [h', h, Nat.even_add]
  tauto

theorem drawn_drawNormal : Drawn 1 m m.drawNormal.2 := by
  unfold Drawn drawNormal
  cases m.normalDist <;> simp

theorem drawn_sample (profile : LatencyProfile lib) :
    Drawn (if m.normalRegime profile then 1 else 0) m (m.sample profile).2 := by
  unfold sample sampleGaussianTail normalRegime
  dsimp only
  split_ifs with hregime
  · exact drawn_drawNormal { m with
      rng := (lib.uniform m.rng).2, samplesGenerated := m.samplesGenerated + 1 }
  · exact Drawn.of_eq rfl

theorem drawn_samples (profiles : List (LatencyProfile lib)) (m : LatencyModel lib) :
    Drawn (m.normalsOfSamples profiles) m
      (profiles.foldl (fun m profile => (m.sample profile).2) m) := by
  induction profiles generalizing m with
  | nil => exact Drawn.of_eq rfl
  | cons profile profiles ih => exact (m.drawn_sample profile).trans (ih _)

theorem sample_frame (profile : LatencyProfile lib) :
    (m.sample profile).2.matchingProfile = m.matchingProfile ∧
      (m.sample profile).2.mdProfile = m.mdProfile ∧
      (m.sample profile).2.clientProfile = m.clientProfile := by
  unfold sample sampleGaussianTail drawNormal
  dsimp only
  split_ifs
  · cases m.normalDist <;> exact ⟨rfl, rfl, rfl⟩
  · exact ⟨rfl, rfl, rfl⟩

theorem sampleRoundTrip_model (traderId : TraderId) : (m.sampleRoundTrip traderId).2 =
    (m.sampledProfiles (.roundTrip traderId)).foldl (fun m profile => (m.sample profile).2) m := by
  simp only [sampledProfiles, List.foldl_cons, List.foldl_nil, sampleRoundTrip,
    sampleNetworkLatency, sampleMatchingLatency, sampleMdLatency, sample_frame]

theorem drawn_step (call : Call lib) : Drawn (m.normalsOfCall call) m (m.step call) := by
  cases call with
  | sampling c =>
    cases c with
    | roundTrip traderId =>
      change Drawn _ m (m.sampleRoundTrip traderId).2
      rw [sampleRoundTrip_model]
      exact drawn_samples _ m
    | addJitter baseNs jitterFraction => exact m.drawn_drawNormal
    | networkLatency traderId => exact drawn_samples _ m
    | matchingLatency => exact drawn_samples _ m
    | mdLatency => exact drawn_samples _ m
    | sample profile => exact drawn_samples _ m
  | _ => exact Drawn.of_eq rfl

theorem drawn_history (history : List (Call lib)) (m : LatencyModel lib) :
    Drawn (m.normalsDrawn history) m (history.foldl step m) := by
  induction history generalizing m with
  | nil => exact Drawn.of_eq rfl
  | cons call calls ih => exact (m.drawn_step call).trans (ih _)

/-! ## What samples depend on -/

/-- The same but for the counter. -/
def Recounted (m m' : LatencyModel lib) : Prop := ∃ n, m' = { m with samplesGenerated := n }

theorem Recounted.drawNormal {m m' : LatencyModel lib} (h : Recounted m m') :
    m'.drawNormal.1 = m.drawNormal.1 ∧ Recounted m.drawNormal.2 m'.drawNormal.2 := by
  obtain ⟨n, rfl⟩ := h
  unfold LatencyModel.drawNormal
  dsimp only
  cases m.normalDist <;> exact ⟨rfl, n, rfl⟩

theorem Recounted.sample {m m' : LatencyModel lib} (h : Recounted m m')
    (profile : LatencyProfile lib) :
    (m'.sample profile).1 = (m.sample profile).1 ∧
      Recounted (m.sample profile).2 (m'.sample profile).2 := by
  obtain ⟨n, rfl⟩ := h
  unfold LatencyModel.sample sampleGaussianTail
  dsimp only
  split_ifs
  · have hdraw : Recounted
        { m with rng := (lib.uniform m.rng).2, samplesGenerated := m.samplesGenerated + 1 }
        { m with rng := (lib.uniform m.rng).2, samplesGenerated := n + 1 } := ⟨n + 1, rfl⟩
    obtain ⟨hz, hmodel⟩ := hdraw.drawNormal
    rw [hz]
    exact ⟨rfl, hmodel⟩
  · exact ⟨rfl, n + 1, rfl⟩

theorem Recounted.perform {m m' : LatencyModel lib} (h : Recounted m m') (c : Sampling lib) :
    (m'.perform c).1 = (m.perform c).1 ∧ Recounted (m.perform c).2 (m'.perform c).2 := by
  have hprofiles : m'.clientProfile = m.clientProfile ∧ m'.matchingProfile = m.matchingProfile ∧
      m'.mdProfile = m.mdProfile := by
    obtain ⟨n, rfl⟩ := h
    exact ⟨rfl, rfl, rfl⟩
  cases c with
  | networkLatency traderId =>
    have hsample := h.sample (m.clientProfile traderId)
    simpa only [LatencyModel.perform, sampleNetworkLatency, Prod.map, id, hprofiles, hsample.1, true_and] using hsample.2
  | matchingLatency =>
    have hsample := h.sample m.matchingProfile
    simpa only [LatencyModel.perform, sampleMatchingLatency, Prod.map, id, hprofiles, hsample.1, true_and] using hsample.2
  | mdLatency =>
    have hsample := h.sample m.mdProfile
    simpa only [LatencyModel.perform, sampleMdLatency, Prod.map, id, hprofiles, hsample.1, true_and] using hsample.2
  | roundTrip traderId =>
    have hinbound := h.sample (m.clientProfile traderId)
    have hmatching := hinbound.2.sample m.matchingProfile
    have houtbound := hmatching.2.sample (m.clientProfile traderId)
    have hmd := houtbound.2.sample m.mdProfile
    simpa only [LatencyModel.perform, sampleRoundTrip, sampleNetworkLatency, sampleMatchingLatency,
      sampleMdLatency, Prod.map, id, sample_frame, hprofiles, hinbound.1, hmatching.1, houtbound.1, hmd.1, true_and] using hmd.2
  | sample profile =>
    have hsample := h.sample profile
    simpa only [LatencyModel.perform, Prod.map, id, hsample.1, true_and] using hsample.2
  | addJitter baseNs jitterFraction =>
    have hdraw := h.drawNormal
    simpa only [LatencyModel.perform, LatencyModel.addJitter, Prod.map, id, hdraw.1, true_and] using hdraw.2

theorem Recounted.outputs {m m' : LatencyModel lib} (h : Recounted m m')
    (calls : List (Sampling lib)) :
    Run.outputs LatencyModel.perform m' calls = Run.outputs LatencyModel.perform m calls :=
  Run.outputs_congr (fun _ _ c _ h => h.perform c) h

variable (lib) in
/-- The jitters that a new model returns for one base. -/
def jitters (seed baseNs : UInt64) (jitterFraction : lib.Double) (n : ℕ) : List Sampled :=
  Run.outputs perform (construct lib seed) (.replicate n (.addJitter baseNs jitterFraction))

theorem outputs_addJitter {m : LatencyModel lib} {seed : UInt64} (hdist : m.normalDist = none)
    (hrng : m.rng = lib.seeded seed) (baseNs : UInt64) (jitterFraction : lib.Double) (n : ℕ) :
    Run.outputs perform m (.replicate n (.addJitter baseNs jitterFraction)) =
      jitters lib seed baseNs jitterFraction n := by
  apply Run.outputs_congr
    (R := fun m m' : LatencyModel lib => m'.normalDist = m.normalDist ∧ m'.rng = m.rng)
  · rintro m m' c hc ⟨hdist, hrng⟩
    rw [List.eq_of_mem_replicate hc]
    simp only [perform, addJitter, drawNormal, Prod.map, hdist, hrng]
    cases m.normalDist <;> exact ⟨rfl, rfl, rfl⟩
  · exact ⟨hdist, hrng⟩

/-! ## Reseeding -/

theorem recounted_setSeed {m : LatencyModel lib} (h : m.normalDist = none) (seed : UInt64) :
    Recounted (m.rebuilt seed) (m.setSeed seed) := by
  refine ⟨m.samplesGenerated, ?_⟩
  unfold setSeed rebuilt construct
  rw [h]

theorem replays_of_none {m : LatencyModel lib} (h : m.normalDist = none) (seed : UInt64)
    (calls : List (Sampling lib)) : m.Replays seed calls :=
  (recounted_setSeed h seed).outputs calls

variable (lib) in
/-- The jitters that follow a seed are not all the same. -/
def JittersVary (seed : UInt64) : Prop :=
  ∃ baseNs jitterFraction n, ∀ v, jitters lib seed baseNs jitterFraction n ≠ .replicate n v

theorem none_of_replays {m : LatencyModel lib} {seed : UInt64} (hvary : JittersVary lib seed)
    (h : ∀ calls, m.Replays seed calls) : m.normalDist = none := by
  obtain ⟨baseNs, jitterFraction, n, hne⟩ := hvary
  by_contra hheld
  obtain ⟨z, hz⟩ := Option.ne_none_iff_exists'.mp hheld
  obtain ⟨v, m', hfirst, hdist, hrng⟩ : ∃ v m',
      (m.setSeed seed).perform (.addJitter baseNs jitterFraction) = (v, m') ∧
        m'.normalDist = none ∧ m'.rng = lib.seeded seed := by
    simp only [perform, addJitter, drawNormal, setSeed, hz]
    exact ⟨_, _, rfl, rfl, rfl⟩
  have hsucc (k : ℕ) : jitters lib seed baseNs jitterFraction (k + 1) =
      v :: jitters lib seed baseNs jitterFraction k := by
    have hreplay := h (.replicate (k + 1) (.addJitter baseNs jitterFraction))
    rw [Replays, outputs_addJitter (m := m.rebuilt seed) rfl rfl, List.replicate_succ, Run.outputs,
      hfirst, outputs_addJitter hdist hrng] at hreplay
    exact hreplay.symm
  have hall (k : ℕ) : jitters lib seed baseNs jitterFraction k = .replicate k v := by
    induction k with
    | zero => rfl
    | succ k ih => rw [hsucc, ih, List.replicate_succ]
  exact hne v (hall n)

/-- **When reseeding replays**: after a history with an even number of normal variates, and no
other. -/
theorem set_seed_replays (seed₀ : UInt64) (history : List (Call lib)) (seed : UInt64) :
    let m := history.foldl step (construct lib seed₀)
    (Even ((construct lib seed₀).normalsDrawn history) → ∀ calls, m.Replays seed calls) ∧
    (JittersVary lib seed →
      ((∀ calls, m.Replays seed calls) ↔ Even ((construct lib seed₀).normalsDrawn history))) := by
  intro m
  have hdrawn : m.normalDist = none ↔ Even ((construct lib seed₀).normalsDrawn history) :=
    Iff.trans (drawn_history history (construct lib seed₀)) (iff_true_right rfl)
  refine ⟨fun heven calls => replays_of_none (hdrawn.mpr heven) seed calls, fun hvary => ?_⟩
  rw [← hdrawn]
  exact ⟨none_of_replays hvary, fun hnone calls => replays_of_none hnone seed calls⟩

/-- Exact arithmetic, an engine that counts, and normal variates that are what it counts. -/
def counting : Stdlib where
  Double := ℚ
  literal := id
  add := (· + ·)
  sub := (· - ·)
  mul := (· * ·)
  div := (· / ·)
  lt a b := decide (a < b)
  ofUInt64 n := n.toNat
  toUInt64 a := .ofNat ⌊a⌋.toNat
  Engine := ℕ
  seeded seed := seed.toNat
  uniform n := ((n % 2 : ℕ), n + 1)
  exponential n := (n, n + 1)
  normals n := (n, (n + 1 : ℕ), n + 2)

def oneJitter : List (Call counting) := [.sampling (.addJitter 100 (1 : ℚ))]

theorem set_seed_replays_oneJitter : JittersVary counting 42 ∧
    ((∀ calls, (oneJitter.foldl step (construct counting 42)).Replays 42 calls) ↔
      Even ((construct counting 42).normalsDrawn oneJitter)) := by
  have hvary : JittersVary counting 42 := by
    refine ⟨100, (1 : ℚ), 2, fun v hv => ?_⟩
    have hjitters : jitters counting 42 100 (1 : ℚ) 2 = [.ns 4300, .ns 4400] := by
      decide +kernel
    rw [hjitters] at hv
    have hsame := (List.eq_replicate_iff.mp hv).2
    have heq : Sampled.ns 4300 = .ns 4400 := (hsame _ (by simp)).trans (hsame _ (by simp)).symm
    exact absurd heq (by decide)
  exact ⟨hvary, (set_seed_replays 42 oneJitter 42).2 hvary⟩

/-- One jitter, and the next one is not the first after reseeding. -/
theorem set_seed_keeps_variate : ¬ ∀ (lib : Stdlib) (seed₀ : UInt64) (history : List (Call lib))
    (seed : UInt64) (calls : List (Sampling lib)),
    (history.foldl step (construct lib seed₀)).Replays seed calls := by
  intro h
  have hreplay := h counting 42 oneJitter 42 [.addJitter 100 (1 : ℚ)]
  revert hreplay
  unfold Replays
  decide +kernel

end LatencyModel

end HftSdk
