import CodeLayout.Proofs.Forwarding.Chain
import Mathlib.Data.Finset.Card

/-!
# Chains that run in a circle

A table is written by recording moves and by closing it, in any order.  It holds the last move
out of every address that was recorded to move before it was closed.  An address is forwarded to
the end of its chain.  If the chain has none, there are fewer addresses to leave than hops are
made, so it has run into a circle, and the address at which it is cut off lies on that circle.
-/

namespace CodeLayout

variable {next : Nat → Option Nat} {a b : Nat}

/-- No address on the chain is without a hop that leaves it. -/
def Endless (next : Nat → Option Nat) (a : Nat) : Prop :=
  ∀ hops b, walk next hops a = some b → next b ≠ none

/-- An address on the chain from another one to which the chain comes back. -/
structure OnCircle (next : Nat → Option Nat) (a b : Nat) : Prop where
  reached : ∃ hops, walk next hops a = some b
  returns : ∃ hops, 0 < hops ∧ walk next hops b = some b

/-- What is reached in some hops is where the further ones start. -/
theorem walk_add {i : Nat} (reached : walk next i a = some b) (j : Nat) :
    walk next (i + j) a = walk next j b := by
  induction i generalizing a with
  | zero =>
      cases reached
      rw [Nat.zero_add]
  | succ i inductionHypothesis =>
      cases leads : next a with
      | none =>
          rw [walk_stuck leads] at reached
          contradiction
      | some c =>
          rw [walk_succ leads] at reached
          rw [Nat.succ_add, walk_succ leads]
          exact inductionHypothesis reached

namespace Endless

/-- A chain without an end can be followed as far as one likes. -/
theorem exists_walk (endless : Endless next a) (hops : Nat) : ∃ b, walk next hops a = some b := by
  induction hops with
  | zero => exact ⟨a, walk_zero next a⟩
  | succ hops inductionHypothesis =>
      rcases inductionHypothesis with ⟨b, reached⟩
      rcases Option.ne_none_iff_exists'.mp (endless hops b reached) with ⟨c, leads⟩
      exact ⟨c, walk_append_hop reached leads⟩

/-- Among more addresses than there are to leave, one occurs twice. -/
theorem exists_repeat {keys : List Nat} (endless : Endless next a)
    (leaves : ∀ x, next x ≠ none → x ∈ keys) :
    ∃ i j, i < j ∧ j ≤ keys.length ∧ walk next i a = walk next j a := by
  have more : (keys.map some).toFinset.card < (Finset.range (keys.length + 1)).card := by
    rw [Finset.card_range, Nat.lt_succ_iff, ← List.length_map (f := some)]
    exact List.toFinset_card_le _
  have within : ∀ hops ∈ Finset.range (keys.length + 1),
      walk next hops a ∈ (keys.map some).toFinset := by
    intro hops _
    rcases endless.exists_walk hops with ⟨b, reached⟩
    rw [reached, List.mem_toFinset]
    exact List.mem_map_of_mem (leaves b (endless hops b reached))
  rcases Finset.exists_ne_map_eq_of_card_lt_of_maps_to more within with
    ⟨i, early, j, late, differ, same⟩
  rw [Finset.mem_range, Nat.lt_succ_iff] at early late
  rcases Nat.lt_or_gt_of_ne differ with before | behind
  · exact ⟨i, j, before, late, same⟩
  · exact ⟨j, i, behind, early, same.symm⟩

/-- After as many hops as there are addresses to leave, the chain runs in its circle. -/
theorem onCircle {keys : List Nat} {hops : Nat} (endless : Endless next a)
    (leaves : ∀ x, next x ≠ none → x ∈ keys) (far : keys.length ≤ hops)
    (reached : walk next hops a = some b) : OnCircle next a b := by
  rcases endless.exists_repeat leaves with ⟨i, j, before, within, same⟩
  rcases endless.exists_walk i with ⟨c, entered⟩
  have again : walk next j a = some c := same ▸ entered
  refine ⟨⟨hops, reached⟩, j - i, Nat.sub_pos_of_lt before, ?_⟩
  -- From `c` it is one round back to `c`, and `hops - i` hops on to `b`.
  have ahead : walk next (hops - i) c = some b := by
    rw [← walk_add entered, Nat.add_sub_cancel' (by omega), reached]
  have round : walk next (j - i) c = some c := by
    rw [← walk_add entered, Nat.add_sub_cancel' (Nat.le_of_lt before), again]
  rw [← walk_add ahead, Nat.add_comm, walk_add round, ahead]

end Endless

namespace Forwarding

variable {t : Forwarding} {hops : List (Nat × Nat)}

/-! ## Following a table to its end -/

/-- A chain is followed to its end, however long it is. -/
theorem forward_of_ends {length : Nat} (reached : walk t.lookup length a = some b)
    (ends : t.lookup b = none) : t.forward a = b :=
  t.forward_eq_iff.mpr (Or.inl ⟨length, reached, ends⟩)

theorem forward_of_unleft (ends : t.lookup a = none) : t.forward a = a :=
  forward_of_ends (walk_zero _ _) ends

theorem forward_of_endless (endless : Endless t.lookup a) :
    OnCircle t.lookup a (t.forward a) := by
  rcases t.forward_eq_iff.mp rfl with ⟨length, reached, ends⟩ | cut
  · exact absurd ends (endless length _ reached)
  · refine endless.onCircle t.mem_keys_of_lookup ?_ cut
    rw [List.length_map]
    exact Nat.le_succ t.entries.length

/-! ## Writing a table -/

/-- What is done to a table. -/
inductive Writing where
  | add (old new : Nat)
  | close
deriving DecidableEq, Repr

def write (t : Forwarding) : Writing → Forwarding
  | .add old new => t.add old new
  | .close => t.close

/-- A table after some writings. -/
def writeAll (t : Forwarding) (writings : List Writing) : Forwarding :=
  writings.foldl write t

/-- The moves that a table takes: those that lead elsewhere, up to its closing. -/
def recorded : List Writing → List (Nat × Nat)
  | [] => []
  | .close :: _ => []
  | .add old new :: rest => if old = new then recorded rest else (old, new) :: recorded rest

theorem recorded_append_close (before after : List Writing) :
    recorded (before ++ .close :: after) = recorded before := by
  induction before with
  | nil => rfl
  | cons writing rest inductionHypothesis =>
      cases writing with
      | add old new => rw [List.cons_append, recorded, recorded, inductionHypothesis]
      | close => rfl

/-- A closed table stays as it is. -/
theorem write_of_complete (complete : t.complete = true) (writing : Writing) :
    t.write writing = t := by
  cases writing with
  | add old new => simp [write, add, complete]
  | close =>
      rcases t with ⟨generation, entries, count, _⟩
      cases complete
      rfl

theorem writeAll_of_complete (complete : t.complete = true) (writings : List Writing) :
    t.writeAll writings = t := by
  induction writings with
  | nil => rfl
  | cons writing rest inductionHypothesis =>
      rw [writeAll, List.foldl_cons, write_of_complete complete]
      exact inductionHypothesis

/-- A table records what it takes, behind what it has recorded. -/
theorem Records.writeAll (records : t.Records hops) (isOpen : t.complete = false)
    (writings : List Writing) : (t.writeAll writings).Records (hops ++ recorded writings) := by
  induction writings generalizing t hops with
  | nil =>
      rw [recorded, List.append_nil]
      exact records
  | cons writing rest inductionHypothesis =>
      rw [Forwarding.writeAll, List.foldl_cons]
      cases writing with
      | close =>
          have same : (t.write .close).writeAll rest = t.close := writeAll_of_complete rfl rest
          rw [recorded, List.append_nil]
          change ((t.write .close).writeAll rest).Records hops
          rw [same]
          exact records.close
      | add old new =>
          rw [recorded]
          split
          · rename_i nowhere
            have same : t.add old new = t := by simp [Forwarding.add, nowhere]
            rw [write, same]
            exact inductionHypothesis records isOpen
          · rename_i elsewhere
            have stillOpen : (t.add old new).complete = false := by
              simp [Forwarding.add, isOpen, elsewhere]
            rw [List.append_cons]
            exact inductionHypothesis (records.add isOpen elsewhere) stillOpen

/-- What can be read off a table into which moves were entered. -/
structure Follows (t : Forwarding) (moves : List (Nat × Nat)) : Prop where
  /-- The last move out of an address counts. -/
  lookup : t.lookup = lastHop moves
  /-- A chain that ends is never cut short. -/
  ends : ∀ a b length, walk t.lookup length a = some b → t.lookup b = none → t.forward a = b
  /-- From the end of a chain nothing is forwarded any more. -/
  settled : ∀ a b length, walk t.lookup length a = some b → t.lookup b = none →
    t.forward (t.forward a) = t.forward a
  circles : ∀ a, Endless t.lookup a → OnCircle t.lookup a (t.forward a)
  /-- Every address that was left is counted once, and has one entry. -/
  size : t.size = (moves.map Prod.fst).toFinset.card
  entries : t.entries.length = t.size
  empty : t.isEmpty = true ↔ moves = []

theorem Records.follows (records : t.Records hops) : t.Follows hops where
  lookup := records.lookup
  ends _ _ _ reached ends := forward_of_ends reached ends
  settled a b length reached ends := by
    rw [forward_of_ends reached ends, forward_of_unleft ends]
  circles _ endless := forward_of_endless endless
  size := records.size_eq
  entries := records.counted.symm
  empty := by
    rw [isEmpty, beq_iff_eq, records.size_eq, List.length_eq_zero_iff, List.dedup_eq_nil,
      List.map_eq_nil_iff]

/-- A table that was written in any way follows every chain of the moves it took to the end, or
into its circle, and counts the addresses that they leave.  Nothing that is entered after the
closing has an effect. -/
theorem follows_writeAll (generation : Nat) (writings : List Writing) :
    ((empty generation).writeAll writings).Follows (recorded writings) ∧
      ∀ before after, writings = before ++ .close :: after →
        ((empty generation).writeAll writings).lookup =
            ((empty generation).writeAll before).lookup ∧
          ∀ a, ((empty generation).writeAll writings).forward a =
            ((empty generation).writeAll before).forward a := by
  have records (writings : List Writing) :
      ((empty generation).writeAll writings).Records (recorded writings) :=
    (Records.empty generation).writeAll rfl writings
  refine ⟨(records writings).follows, ?_⟩
  rintro before after rfl
  have late := records (before ++ .close :: after)
  rw [recorded_append_close] at late
  refine ⟨late.lookup.trans (records before).lookup.symm, fun a => ?_⟩
  rw [late.forward_eq_iff, ← (records before).forward_eq_iff]

end Forwarding

end CodeLayout
