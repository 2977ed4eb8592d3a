import CodeLayout.Safepoint
import Mathlib.Data.List.Basic

/-!
# Arrivals at a safepoint

Threads take their steps in any order, also between the three stores of a release.  A thread may
arrive for an epoch that it has read long before.  As long as there are fewer releases than tags
and fewer arrivals than counts, the word of the arrivals belongs to one epoch: the current one,
or the one before it while a release is under way.  So a safepoint tells exactly how many
threads have arrived for its epoch, and is reached only when these are all that are registered.
-/

namespace CodeLayout.Safepoint

/-- How far a release has come, and the epoch that it begins. -/
inductive Stage where
  | idle
  | advanced (next : Nat)
  | cleared (next : Nat)
deriving DecidableEq, Repr

/-- What a thread can do without another one coming in between. -/
inductive Step where
  | register
  | deregister
  | request
  | arrive (epoch : Nat)
  /-- The last look at who has arrived, which ends the waiting. -/
  | reach
  | advanceEpoch
  | clearPhase
  | resetArrivals
deriving DecidableEq, Repr

def Step.isArrival : Step → Bool
  | arrive _ => true
  | _ => false

/-- A safepoint with what has happened to it. -/
structure Watched where
  safepoint : Safepoint
  stage : Stage
  /-- Number of registered threads. -/
  threads : Nat
  /-- The epochs that could be read so far. -/
  epochs : List Nat
  /-- For which epochs threads have arrived, and whether they were counted. -/
  arrivals : List (Nat × Bool)
deriving DecidableEq, Repr

namespace Watched

/-- Before anything has happened. -/
def start : Watched where
  safepoint := initial
  stage := .idle
  threads := 0
  epochs := [initial.epoch]
  arrivals := []

/-- A step leads from one moment to the next.  Only registered threads deregister, and an epoch is
read before a thread arrives for it.  A release begins when no other one is under way, so the
epoch for which it sets the count back is the one that it began. -/
inductive Takes : Watched → Step → Watched → Prop
  | register (w : Watched) :
      Takes w .register { w with safepoint := w.safepoint.register, threads := w.threads + 1 }
  | deregister {w : Watched} (isRegistered : 0 < w.threads) :
      Takes w .deregister { w with safepoint := w.safepoint.deregister, threads := w.threads - 1 }
  | request (w : Watched) : Takes w .request { w with safepoint := w.safepoint.request }
  | arrive {w : Watched} {epoch : Nat} (read : epoch ∈ w.epochs) :
      Takes w (.arrive epoch)
        { w with
          safepoint := (w.safepoint.arrive epoch).2
          arrivals := (epoch, (w.safepoint.arrive epoch).1) :: w.arrivals }
  | reach {w : Watched} {s : Safepoint} (waited : w.safepoint.wait? = some s) :
      Takes w .reach { w with safepoint := s }
  | advanceEpoch {w : Watched} (idle : w.stage = .idle) :
      Takes w .advanceEpoch
        { w with
          safepoint := w.safepoint.advanceEpoch
          stage := .advanced (w.safepoint.epoch + 1)
          epochs := (w.safepoint.epoch + 1) :: w.epochs }
  | clearPhase {w : Watched} {next : Nat} (advanced : w.stage = .advanced next) :
      Takes w .clearPhase { w with safepoint := w.safepoint.clearPhase, stage := .cleared next }
  | resetArrivals {w : Watched} {next : Nat} (cleared : w.stage = .cleared next) :
      Takes w .resetArrivals { w with safepoint := w.safepoint.resetArrivals, stage := .idle }

/-- The steps taken so far, the last one first, and where they have led. -/
inductive Runs : List Step → Watched → Prop
  | start : Runs [] start
  | step {steps : List Step} {step : Step} {w after : Watched} (run : Runs steps w)
      (taken : Takes w step after) : Runs (step :: steps) after

/-- Number of threads that arrived for an epoch and were counted. -/
def counted (w : Watched) (epoch : Nat) : Nat :=
  w.arrivals.count (epoch, true)

/-- What can be read off a safepoint at any moment. -/
structure Accurate (w : Watched) : Prop where
  /-- The threads that are parked are those counted for the current epoch. -/
  paused : w.safepoint.paused = w.counted w.safepoint.epoch
  registered : w.safepoint.registered = UInt64.ofNat w.threads
  /-- The epoch stays as a release has set it until the release is over. -/
  steady : ∀ next, w.stage = .advanced next ∨ w.stage = .cleared next → w.safepoint.epoch = next

/-- What a step may do to a safepoint. -/
structure Admits (w : Watched) (step : Step) (after : Watched) : Prop where
  /-- Who arrives for an epoch that is over is not counted for the current one. -/
  late : ∀ epoch, step = .arrive epoch → epoch ≠ w.safepoint.epoch →
    after.safepoint.epoch = w.safepoint.epoch ∧ after.safepoint.paused = w.safepoint.paused
  /-- A safepoint is reached only when as many threads as are registered have arrived. -/
  reached : after.safepoint.phase = .reached →
    (step ≠ .reach ∧ w.safepoint.phase = .reached) ∨
      (step = .reach ∧ w.safepoint.registered.toNat ≤ w.counted w.safepoint.epoch)

end Watched

variable {w after : Watched} {steps : List Step} {step : Step} {epoch count : Nat}

/-! ## Words of arrivals -/

theorem halfWord_pos : 0 < halfWord := by decide

theorem tag_of_lt (few : epoch < halfWord) : tag epoch = epoch :=
  Nat.mod_eq_of_lt few

theorem tag_of_word (few : count < halfWord) :
    (noArrivals epoch + count) / halfWord = tag epoch := by
  rw [noArrivals, Nat.mul_comm, Nat.mul_add_div halfWord_pos, Nat.div_eq_of_lt few, Nat.add_zero]

theorem count_of_word (few : count < halfWord) : (noArrivals epoch + count) % halfWord = count := by
  rw [noArrivals, Nat.mul_comm, Nat.mul_add_mod, Nat.mod_eq_of_lt few]

/-- One more arrival leaves the tag as it is. -/
theorem succ_word (few : count + 1 < halfWord) :
    (noArrivals epoch + count + 1) % Size.wordLimit = noArrivals epoch + (count + 1) := by
  have half : halfWord = 4294967296 := by decide
  have limit : Size.wordLimit = 18446744073709551616 := by decide
  have tagged : tag epoch < halfWord := Nat.mod_lt _ halfWord_pos
  rw [noArrivals, limit]
  rw [half] at few tagged ⊢
  omega

/-! ## Waiting -/

/-- Waiting ends when as many threads as are registered are parked, and only then. -/
theorem wait?_eq_some_iff {s t : Safepoint} :
    s.wait? = some t ↔ s.registered.toNat ≤ s.paused ∧ t = s.reach := by
  rw [wait?, allArrived]
  split
  · rename_i all
    rw [Option.some_inj, eq_comm, and_iff_right (of_decide_eq_true all)]
  · rename_i missing
    exact iff_of_false nofun fun both => missing (decide_eq_true both.1)

namespace Watched

/-! ## What steps count -/

/-- Epochs begin with releases, and every arrival is answered. -/
theorem Takes.counts (taken : w.Takes step after) :
    after.safepoint.epoch = w.safepoint.epoch + [step].count .advanceEpoch ∧
      after.arrivals.length = w.arrivals.length + [step].countP Step.isArrival := by
  cases taken with
  | register => exact ⟨rfl, rfl⟩
  | deregister => exact ⟨rfl, rfl⟩
  | request => exact ⟨rfl, rfl⟩
  | arrive =>
      rw [Safepoint.arrive]
      split <;> exact ⟨rfl, rfl⟩
  | reach waited =>
      rcases wait?_eq_some_iff.mp waited with ⟨-, rfl⟩
      exact ⟨rfl, rfl⟩
  | advanceEpoch => exact ⟨rfl, rfl⟩
  | clearPhase => exact ⟨rfl, rfl⟩
  | resetArrivals => exact ⟨rfl, rfl⟩

theorem Runs.counts (run : Runs steps w) :
    w.safepoint.epoch = steps.count .advanceEpoch ∧
      w.arrivals.length = steps.countP Step.isArrival := by
  induction run with
  | start => exact ⟨rfl, rfl⟩
  | @step steps step _ _ _ taken inductionHypothesis =>
      rcases taken.counts with ⟨epochs, arrivals⟩
      rw [← List.singleton_append, List.count_append, List.countP_append]
      omega

/-- No more epochs begin than steps are taken. -/
theorem Runs.epoch_le_length (run : Runs steps w) : w.safepoint.epoch ≤ steps.length := by
  rw [run.counts.1]
  exact List.count_le_length

/-- There are tags for all epochs and counts for all arrivals. -/
structure Few (w : Watched) : Prop where
  epochs : w.safepoint.epoch < halfWord
  arrivals : w.arrivals.length < halfWord

theorem Few.counted (few : w.Few) (epoch : Nat) : w.counted epoch < halfWord :=
  Nat.lt_of_le_of_lt List.count_le_length few.arrivals

theorem Few.earlier (few : after.Few) (taken : w.Takes step after) : w.Few := by
  rcases taken.counts with ⟨epochs, arrivals⟩
  have fewEpochs := few.epochs
  have fewArrivals := few.arrivals
  exact ⟨by omega, by omega⟩

/-! ## What steps keep up -/

/-- The epoch whose arrivals are counted. -/
def counting (w : Watched) : Nat :=
  match w.stage with
  | .idle => w.safepoint.epoch
  | _ => w.safepoint.epoch - 1

theorem counting_of_idle (idle : w.stage = .idle) : w.counting = w.safepoint.epoch := by
  rw [counting, idle]

theorem counting_of_busy (busy : w.stage ≠ .idle) : w.counting = w.safepoint.epoch - 1 := by
  rw [counting]
  split
  · exact absurd ‹_› busy
  · rfl

theorem counting_le (w : Watched) : w.counting ≤ w.safepoint.epoch := by
  rw [counting]
  split
  · exact Nat.le_refl _
  · exact Nat.sub_le _ _

/-- What holds in whatever order the steps come. -/
structure Sound (w : Watched) : Prop where
  registered : w.safepoint.registered = UInt64.ofNat w.threads
  epochs : ∀ epoch, epoch ∈ w.epochs ↔ epoch ≤ w.safepoint.epoch
  known : ∀ arrival ∈ w.arrivals, arrival.1 ≤ w.safepoint.epoch
  word : w.safepoint.arrivals = noArrivals w.counting + w.counted w.counting
  /-- Nobody is counted for an epoch before the release that begins it is over. -/
  fresh : w.stage ≠ .idle → 0 < w.safepoint.epoch ∧ w.counted w.safepoint.epoch = 0
  steady : ∀ next, w.stage = .advanced next ∨ w.stage = .cleared next → w.safepoint.epoch = next

namespace Sound

theorem start : Sound start where
  registered := rfl
  epochs epoch := by
    rw [Watched.start, List.mem_singleton]
    exact Nat.le_zero.symm
  known _ member := absurd member List.not_mem_nil
  word := rfl
  fresh busy := absurd rfl busy
  steady _ busy := by rcases busy with busy | busy <;> contradiction

/-- Where nobody arrives and no release goes on, the count stays. -/
theorem of_same (sound : w.Sound)
    (registered : after.safepoint.registered = UInt64.ofNat after.threads)
    (word : after.safepoint.arrivals = w.safepoint.arrivals)
    (epoch : after.safepoint.epoch = w.safepoint.epoch) (stage : after.stage = w.stage)
    (epochs : after.epochs = w.epochs) (arrivals : after.arrivals = w.arrivals) : after.Sound := by
  have counting : after.counting = w.counting := by
    rw [Watched.counting, Watched.counting, stage, epoch]
  have counted (e : Nat) : after.counted e = w.counted e := by
    rw [Watched.counted, Watched.counted, arrivals]
  constructor
  · exact registered
  · rw [epochs, epoch]
    exact sound.epochs
  · rw [arrivals, epoch]
    exact sound.known
  · rw [word, counting, counted]
    exact sound.word
  · rw [stage, epoch, counted]
    exact sound.fresh
  · rw [stage, epoch]
    exact sound.steady

theorem paused_eq (sound : w.Sound) (few : w.Few) :
    w.safepoint.paused = w.counted w.safepoint.epoch := by
  have inTags := tag_of_lt (Nat.lt_of_le_of_lt w.counting_le few.epochs)
  rw [paused, sound.word, tag_of_word (few.counted _), count_of_word (few.counted _), inTags,
    tag_of_lt few.epochs]
  by_cases idle : w.stage = .idle
  · rw [counting_of_idle idle, if_pos rfl]
  · rcases sound.fresh idle with ⟨begun, nobody⟩
    have behind := counting_of_busy idle
    rw [if_neg (by omega), nobody]

theorem accurate (sound : w.Sound) (few : w.Few) : w.Accurate where
  paused := sound.paused_eq few
  registered := sound.registered
  steady := sound.steady

/-- Who arrives is counted exactly if the count is for that epoch. -/
theorem arrive_eq (sound : w.Sound) (few : w.Few) (read : epoch ∈ w.epochs) :
    w.safepoint.arrive epoch =
      if epoch = w.counting then
        (true, { w.safepoint with arrivals := (w.safepoint.arrivals + 1) % Size.wordLimit })
      else (false, w.safepoint) := by
  have known := (sound.epochs epoch).mp read
  have inTags := tag_of_lt (Nat.lt_of_le_of_lt known few.epochs)
  have isTag : w.safepoint.arrivals / halfWord = w.counting := by
    rw [sound.word, tag_of_word (few.counted _),
      tag_of_lt (Nat.lt_of_le_of_lt w.counting_le few.epochs)]
  rw [arrive, isTag, inTags]
  exact if_congr eq_comm rfl rfl

/-- An arrival leaves the word in order. -/
theorem arrive (sound : w.Sound) (few : w.Few) (room : w.arrivals.length + 1 < halfWord)
    (read : epoch ∈ w.epochs) :
    Sound { w with
      safepoint := (w.safepoint.arrive epoch).2
      arrivals := (epoch, (w.safepoint.arrive epoch).1) :: w.arrivals } := by
  have known := (sound.epochs epoch).mp read
  rw [sound.arrive_eq few read]
  split
  · rename_i current
    have more : ((epoch, true) :: w.arrivals).count (epoch, true) = w.counted epoch + 1 :=
      List.count_cons_self
    have fits : w.counted epoch + 1 < halfWord :=
      Nat.lt_of_le_of_lt (Nat.succ_le_succ List.count_le_length) room
    refine ⟨sound.registered, sound.epochs, List.forall_mem_cons.mpr ⟨known, sound.known⟩, ?_, ?_,
      sound.steady⟩
    · change (w.safepoint.arrivals + 1) % Size.wordLimit =
        noArrivals w.counting + ((epoch, true) :: w.arrivals).count (w.counting, true)
      rw [sound.word, ← current, more]
      exact succ_word fits
    · intro busy
      rcases sound.fresh busy with ⟨begun, nobody⟩
      have behind : w.counting = w.safepoint.epoch - 1 := counting_of_busy busy
      have differ : epoch ≠ w.safepoint.epoch := by omega
      exact ⟨begun, (List.count_cons_of_ne (by simp [differ])).trans nobody⟩
  · have same (e : Nat) : ((epoch, false) :: w.arrivals).count (e, true) = w.counted e :=
      List.count_cons_of_ne (by simp)
    refine ⟨sound.registered, sound.epochs, List.forall_mem_cons.mpr ⟨known, sound.known⟩, ?_, ?_,
      sound.steady⟩
    · exact sound.word.trans (congrArg _ (same _).symm)
    · exact fun busy => ⟨(sound.fresh busy).1, (same _).trans (sound.fresh busy).2⟩

/-- Every step keeps the count in order. -/
theorem keeps (sound : w.Sound) (few : after.Few) (taken : w.Takes step after) : after.Sound := by
  cases taken with
  | register =>
      refine sound.of_same ?_ rfl rfl rfl rfl rfl
      change w.safepoint.registered + 1 = UInt64.ofNat (w.threads + 1)
      rw [sound.registered, UInt64.ofNat_add]
      rfl
  | deregister isRegistered =>
      refine sound.of_same ?_ rfl rfl rfl rfl rfl
      change w.safepoint.registered - 1 = UInt64.ofNat (w.threads - 1)
      rw [sound.registered, UInt64.ofNat_sub isRegistered]
      rfl
  | request => exact sound.of_same sound.registered rfl rfl rfl rfl rfl
  | arrive read => exact sound.arrive (few.earlier (.arrive read)) few.arrivals read
  | reach waited =>
      rcases wait?_eq_some_iff.mp waited with ⟨-, rfl⟩
      exact sound.of_same sound.registered rfl rfl rfl rfl rfl
  | advanceEpoch idle =>
      have nobody : w.counted (w.safepoint.epoch + 1) = 0 := by
        rw [counted, List.count_eq_zero]
        intro arrived
        exact Nat.not_succ_le_self _ (sound.known _ arrived)
      have word := sound.word
      rw [counting_of_idle idle] at word
      refine ⟨sound.registered, fun e => ?_, fun arrival arrived => ?_, word,
        fun _ => ⟨Nat.succ_pos _, nobody⟩, ?_⟩
      · change e ∈ (w.safepoint.epoch + 1) :: w.epochs ↔ e ≤ w.safepoint.epoch + 1
        rw [List.mem_cons, sound.epochs]
        omega
      · exact Nat.le_succ_of_le (sound.known arrival arrived)
      · rintro next (begun | begun) <;> cases begun
        rfl
  | clearPhase advanced =>
      have busy : w.stage ≠ .idle := by simp [advanced]
      have word := sound.word
      rw [counting_of_busy busy] at word
      refine ⟨sound.registered, sound.epochs, sound.known, word, fun _ => sound.fresh busy, ?_⟩
      rintro other (begun | begun) <;> cases begun
      exact sound.steady _ (Or.inl advanced)
  | resetArrivals cleared =>
      have busy : w.stage ≠ .idle := by simp [cleared]
      refine ⟨sound.registered, sound.epochs, sound.known, ?_, fun idle => absurd rfl idle, ?_⟩
      · change noArrivals w.safepoint.epoch =
          noArrivals w.safepoint.epoch + w.counted w.safepoint.epoch
        rw [(sound.fresh busy).2, Nat.add_zero]
      · rintro other (begun | begun) <;> cases begun

theorem of_run (run : Runs steps w) (few : w.Few) : w.Sound := by
  induction run with
  | start => exact start
  | step _ taken inductionHypothesis =>
      exact (inductionHypothesis (few.earlier taken)).keeps few taken

/-- No step counts someone who is late, or goes on without someone who is registered. -/
theorem admits (sound : w.Sound) (few : after.Few) (taken : w.Takes step after) :
    w.Admits step after := by
  have paused := sound.paused_eq (few.earlier taken)
  have pausedAfter := (sound.keeps few taken).paused_eq few
  refine ⟨?_, fun reached => ?_⟩
  · rintro epoch rfl isPast
    have same : after.safepoint.epoch = w.safepoint.epoch := taken.counts.1
    refine ⟨same, ?_⟩
    rw [pausedAfter, paused, same]
    cases taken
    exact List.count_cons_of_ne (by simp [isPast])
  · cases taken with
    | reach waited => exact Or.inr ⟨rfl, paused ▸ (wait?_eq_some_iff.mp waited).1⟩
    | register => exact Or.inl ⟨by simp, reached⟩
    | deregister => exact Or.inl ⟨by simp, reached⟩
    | request => contradiction
    | arrive =>
        rw [Safepoint.arrive] at reached
        split at reached <;> exact Or.inl ⟨by simp, reached⟩
    | advanceEpoch => exact Or.inl ⟨by simp, reached⟩
    | clearPhase => contradiction
    | resetArrivals => exact Or.inl ⟨by simp, reached⟩

end Sound

/-- With fewer releases than tags and fewer arrivals than counts, a safepoint is accurate before
and after every step of a run, and the step does no more than it may. -/
theorem accurate_of_run (run : Runs steps w) (taken : w.Takes step after)
    (fewReleases : (step :: steps).count .advanceEpoch < halfWord)
    (fewArrivals : (step :: steps).countP Step.isArrival < halfWord) :
    w.Accurate ∧ after.Accurate ∧ w.Admits step after := by
  have counts := (run.step taken).counts
  have few : after.Few := ⟨counts.1 ▸ fewReleases, counts.2 ▸ fewArrivals⟩
  have fewBefore := few.earlier taken
  have sound := Sound.of_run run fewBefore
  exact ⟨sound.accurate fewBefore, (sound.keeps few taken).accurate few, sound.admits few taken⟩

/-- A thread has arrived, and the epoch for which the next thread arrives is over. -/
def betweenStores : Watched where
  safepoint :=
    { phase := .reached, arrivals := noArrivals 0 + 1, registered := 1, epoch := 1 }
  stage := .advanced 1
  threads := 1
  epochs := [1, 0]
  arrivals := [(0, true)]

theorem runs_betweenStores :
    Runs [.advanceEpoch, .reach, .arrive 0, .request, .register] betweenStores :=
  have registered := Runs.step .start (.register _)
  have requested := registered.step (.request _)
  have arrived := requested.step (.arrive (List.mem_singleton_self 0))
  have reached := arrived.step (.reach rfl)
  reached.step (.advanceEpoch rfl)

theorem accurate_of_run_betweenStores :
    betweenStores.Takes (.arrive 0)
        { betweenStores with
          safepoint := (betweenStores.safepoint.arrive 0).2
          arrivals := [(0, true), (0, true)] } ∧
      betweenStores.Admits (.arrive 0)
        { betweenStores with
          safepoint := (betweenStores.safepoint.arrive 0).2
          arrivals := [(0, true), (0, true)] } :=
  have taken : betweenStores.Takes (.arrive 0) _ := .arrive (by decide)
  ⟨taken, (accurate_of_run runs_betweenStores taken (by decide) (by decide)).2.2⟩

end Watched

end CodeLayout.Safepoint
