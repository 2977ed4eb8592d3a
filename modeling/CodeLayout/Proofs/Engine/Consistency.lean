import CodeLayout.Proofs.Engine.Pass
import Mathlib.Data.List.Pairwise
import Mathlib.Data.Set.Function

/-!
# Consistency of an engine

From a fresh engine on, whatever calls are made: the placements are a one to
one image of the live blobs, no two of which overlap, and the code of every
placed method is the code that was installed last for it.
-/

namespace CodeLayout.Engine

variable {e : Engine} {code : Method → Option ByteArray}

namespace Consistent

theorem runWith (consistent : e.Consistent code) (files : FileTree) (ranking : List Method)
    (elapsed : Nat) :
    (e.runWith files ranking elapsed).engine.Consistent code ∧
      Frame e (e.runWith files ranking elapsed).engine := by
  unfold Engine.runWith
  split
  · split
    · exact consistent.runPass files ranking elapsed
    · have marked : Consistent { e with seedUsed := true } code :=
        ⟨consistent.held, consistent.numbered⟩
      rcases marked.runPass files _ elapsed with ⟨after, frame⟩
      exact ⟨after, ⟨frame.recording, frame.segmentation, frame.sites⟩⟩
  · exact consistent.runPass files ranking elapsed

/-- Each call keeps placements and cache in agreement. -/
theorem perform (consistent : e.Consistent code) (call : Call) :
    (e.perform call).Consistent (e.codeAfter code call) ∧ Frame e (e.perform call) := by
  cases call with
  | install m bytes requested _ => exact consistent.install m bytes requested
  | unload m => exact consistent.unload m
  | runPass files ranking elapsed => exact consistent.runPass files ranking elapsed
  | runWith files ranking elapsed => exact consistent.runWith files ranking elapsed

theorem performAll (consistent : e.Consistent code) (calls : List Call) :
    (e.performAll calls).Consistent (e.lastCode code calls) ∧ Frame e (e.performAll calls) := by
  induction calls generalizing e code with
  | nil => exact ⟨consistent, Frame.refl e⟩
  | cons call rest inductionHypothesis =>
      rcases consistent.perform call with ⟨middle, frame⟩
      rcases inductionHypothesis middle with ⟨after, frameRest⟩
      exact ⟨after, frame.trans frameRest⟩

end Consistent

/-- Placements and cache agree in every engine that is reached. -/
theorem Reached.consistent (reached : Reached e) : ∃ code, e.Consistent code := by
  rcases reached with ⟨start, calls, fresh, rfl⟩
  exact ⟨_, ((fresh.consistent fun _ => none).performAll calls).1⟩

theorem separate_smallEngine : smallEngine.cache.Separate := by
  obtain ⟨_, frame⟩ := ((fresh_small false).consistent fun _ => none).performAll
    [.install firstMethod ⟨#[1, 2, 3]⟩ .hot short_first,
      .install secondMethod ⟨#[4, 5]⟩ .nonProfiled short_second]
  exact separate_small.of_sites frame.sites

/-- The placements of an engine are the live blobs of its cache, one for one. -/
structure Matched (e : Engine) : Prop where
  /-- No method is placed twice, and each is found under its own name. -/
  methods : (e.placements.map Placement.method).Nodup
  found : ∀ p ∈ e.placements, e.placements.find? p.method = some p
  /-- No blob is left over, stored twice, shared or missing. -/
  blobs : e.cache.blobs.Nodup
  bijective : Set.BijOn Placement.blob {p | p ∈ e.placements} {b | b ∈ e.cache.blobs}
  owner : ∀ p ∈ e.placements, p.blob.method = p.method
  /-- The heap of its partition stores the blob at its address. -/
  stored : ∀ p ∈ e.placements,
    (e.cache.heap? p.partition).bind (fun h => h.blob? p.address) = some p.blob
  located : ∀ p ∈ e.placements, e.cache.partitionOf p.address = some p.partition
  /-- The padded ranges of different methods do not overlap. -/
  apart : ∀ p ∈ e.placements, ∀ q ∈ e.placements, p.method ≠ q.method → p.blob.Apart q.blob
  /-- The placements stand in the order of their compilations. -/
  ascending : (e.placements.map Placement.compiled).Pairwise (· < ·)

theorem Consistent.matched (consistent : e.Consistent code) (separate : e.cache.Separate) :
    e.Matched := by
  have held := consistent.held
  have valid := held.stores.valid
  have sameMethod {p q : Placement} (first : p ∈ e.placements) (second : q ∈ e.placements)
      (equal : p.blob = q.blob) : p.method = q.method := by
    rw [← held.owner p first, ← held.owner q second, equal]
  constructor
  · exact held.methods
  · exact fun p member => held.find?_of_mem member
  · exact valid.blobs_nodup
  · constructor
    · exact fun p member => held.live member
    · constructor
      · intro p first q second equal
        exact List.inj_on_of_nodup_map held.methods first second (sameMethod first second equal)
      · intro b live
        exact List.mem_map.mp (held.blobs.mem_iff.mp live)
  · exact held.owner
  · exact fun p member => valid.blob?_of_mem (held.live member)
  · exact fun p member => valid.partitionOf_of_mem separate (held.live member)
  · intro p first q second differ
    apply (valid.apart separate).forall (held.live first) (held.live second)
    intro equal
    exact differ (sameMethod first second equal)
  · exact held.ascending

/-- Placements and cache of an engine never drift apart. -/
theorem matched_performAll (fresh : Fresh e) (separate : e.cache.Separate) (calls : List Call) :
    (e.performAll calls).Matched := by
  rcases (fresh.consistent fun _ => none).performAll calls with ⟨consistent, frame⟩
  exact consistent.matched (separate.of_sites frame.sites)

theorem matched_small :
    Fresh (Engine.start false smallCache) ∧ (Engine.start false smallCache).cache.Separate ∧
      ((Engine.start false smallCache).performAll
        [.install firstMethod ⟨#[1, 2, 3]⟩ .hot short_first,
          .install secondMethod ⟨#[4, 5]⟩ .nonProfiled short_second,
          exchange, .unload secondMethod]).Matched := by
  have fresh := fresh_small false
  exact ⟨fresh, separate_small, matched_performAll fresh separate_small _⟩

/-- The code of a placed method is the code that was installed last for it,
byte for byte. -/
theorem installed_code_kept (fresh : Fresh e) (calls : List Call) {p : Placement}
    (member : p ∈ (e.performAll calls).placements) :
    ∃ bytes, e.lastCode (fun _ => none) calls p.method = some bytes ∧
      (e.performAll calls).cache.code? p.blob = some bytes ∧
      p.size = bytes.size ∧ p.blob.padded = Size.padded bytes.size := by
  rcases (fresh.consistent fun _ => none).performAll calls with ⟨consistent, _⟩
  have held := consistent.held
  have valid := held.stores.valid
  have live := held.live member
  rcases valid.exists_code live with ⟨bytes, isCode⟩
  have size := valid.code?_size live isCode
  have isLast := held.code?_eq member
  rw [isCode] at isLast
  have padded := valid.padded_eq live
  rw [← size] at padded
  exact ⟨bytes, isLast.symm, isCode, size.symm, padded⟩

/-- The method that a pass moved has the code that it had before. -/
theorem installed_code_kept_small :
    ∃ p ∈ (smallEngine.perform exchange).placements, p.partition = .hot ∧
      ∃ bytes, (smallEngine.perform exchange).cache.code? p.blob = some bytes ∧
        p.size = bytes.size := by
  have member : (⟨secondMethod, ⟨secondMethod, .hot, 0x3000000, 2, 64⟩, some 0, 2⟩ : Placement) ∈
      (smallEngine.perform exchange).placements := by
    rw [perform_exchange.1.placements]
    change _ ∈ exchangeOpening.run.2.placements
    rw [run_exchange.2.1]
    simp
  obtain ⟨bytes, _, isCode, size, _⟩ := installed_code_kept (fresh_small false)
    [.install firstMethod ⟨#[1, 2, 3]⟩ .hot short_first,
      .install secondMethod ⟨#[4, 5]⟩ .nonProfiled short_second, exchange] member
  exact ⟨_, member, rfl, bytes, isCode, size⟩

end CodeLayout.Engine
