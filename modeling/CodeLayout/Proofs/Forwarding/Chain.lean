import CodeLayout.Forwarding
import Mathlib.Data.List.Dedup
import Mathlib.Logic.Function.Basic

/-!
# Chains of moves

A forwarding table is followed from entry to entry.  A chain that ends is
followed to its end, since it passes no address twice; only a chain that runs
in a circle is cut off.

The table of a pass is written hop by hop.  It keeps the last hop out of every
address, whichever method made it.
-/

namespace CodeLayout

/-- The address that is reached in a number of hops; none if one of them is
missing. -/
def walk (next : Nat → Option Nat) : Nat → Nat → Option Nat
  | 0, a => some a
  | hops + 1, a => (next a).bind (walk next hops)

/-- The addresses that are left on the way. -/
def passed (next : Nat → Option Nat) : Nat → Nat → List Nat
  | 0, _ => []
  | hops + 1, a =>
    match next a with
    | some b => a :: passed next hops b
    | none => []

variable {next : Nat → Option Nat} {a b : Nat}

theorem walk_zero (next : Nat → Option Nat) (a : Nat) : walk next 0 a = some a :=
  rfl

theorem walk_succ {c : Nat} (leads : next a = some c) (hops : Nat) :
    walk next (hops + 1) a = walk next hops c := by
  rw [walk, leads]
  rfl

theorem walk_stuck (ends : next a = none) (hops : Nat) : walk next (hops + 1) a = none := by
  rw [walk, ends]
  rfl

/-- A chain that ends has only one length. -/
theorem walk_length_unique {i j : Nat} (first : walk next i a = some b)
    (second : walk next j a = some b) (ends : next b = none) : i = j := by
  induction i generalizing a j with
  | zero =>
      cases first
      cases j with
      | zero => rfl
      | succ j =>
          rw [walk_stuck ends] at second
          contradiction
  | succ i inductionHypothesis =>
      cases leads : next a with
      | none =>
          rw [walk_stuck leads] at first
          contradiction
      | some c =>
          rw [walk_succ leads] at first
          cases j with
          | zero =>
              cases second
              rw [ends] at leads
              contradiction
          | succ j =>
              rw [walk_succ leads] at second
              rw [inductionHypothesis first second]

/-- The addresses that a chain leaves lie before its end. -/
theorem walk_of_mem_passed {hops x : Nat} (reached : walk next hops a = some b)
    (member : x ∈ passed next hops a) :
    next x ≠ none ∧ ∃ left, 0 < left ∧ left ≤ hops ∧ walk next left x = some b := by
  induction hops generalizing a with
  | zero => contradiction
  | succ hops inductionHypothesis =>
      cases leads : next a with
      | none =>
          rw [walk_stuck leads] at reached
          contradiction
      | some c =>
          rw [passed, leads] at member
          rcases List.mem_cons.mp member with rfl | later
          · constructor
            · simp [leads]
            · exact ⟨hops + 1, Nat.succ_pos hops, Nat.le_refl _, reached⟩
          · rw [walk_succ leads] at reached
            rcases inductionHypothesis reached later with ⟨leaves, left, positive, atMost, ahead⟩
            exact ⟨leaves, left, positive, Nat.le_succ_of_le atMost, ahead⟩

/-- A chain that ends leaves no address twice. -/
theorem passed_nodup {hops : Nat} (reached : walk next hops a = some b) (ends : next b = none) :
    (passed next hops a).Nodup ∧ (passed next hops a).length = hops := by
  induction hops generalizing a with
  | zero => exact ⟨List.nodup_nil, rfl⟩
  | succ hops inductionHypothesis =>
      cases leads : next a with
      | none =>
          rw [walk_stuck leads] at reached
          contradiction
      | some c =>
          have ahead := reached
          rw [walk_succ leads] at ahead
          rcases inductionHypothesis ahead with ⟨nodup, length⟩
          rw [passed, leads]
          constructor
          · apply List.nodup_cons.mpr
            constructor
            · intro again
              rcases walk_of_mem_passed ahead again with ⟨_, left, _, atMost, sooner⟩
              have same := walk_length_unique reached sooner ends
              omega
            · exact nodup
          · rw [List.length_cons, length]

/-- A chain that ends is no longer than there are addresses to leave. -/
theorem walk_le_of_ends {hops : Nat} {keys : List Nat} (leaves : ∀ x, next x ≠ none → x ∈ keys)
    (reached : walk next hops a = some b) (ends : next b = none) : hops ≤ keys.length := by
  rcases passed_nodup reached ends with ⟨nodup, length⟩
  rw [← length]
  apply nodup.length_le_of_subset
  intro x member
  exact leaves x (walk_of_mem_passed reached member).1

/-- A hop out of an address that nothing has left yet only lengthens chains. -/
theorem walk_update {hops old : Nat} (new : Nat) (unleft : next old = none)
    (reached : walk next hops a = some b) :
    walk (Function.update next old (some new)) hops a = some b := by
  induction hops generalizing a with
  | zero => exact reached
  | succ hops inductionHypothesis =>
      cases leads : next a with
      | none =>
          rw [walk_stuck leads] at reached
          contradiction
      | some c =>
          have elsewhere : a ≠ old := by
            rintro rfl
            rw [unleft] at leads
            contradiction
          rw [walk_succ leads] at reached
          have stillLeads : Function.update next old (some new) a = some c := by
            rw [Function.update_of_ne elsewhere, leads]
          rw [walk_succ stillLeads]
          exact inductionHypothesis reached

theorem walk_append_hop {hops c : Nat} (reached : walk next hops a = some b)
    (leads : next b = some c) : walk next (hops + 1) a = some c := by
  induction hops generalizing a with
  | zero =>
      cases reached
      rw [walk_succ leads, walk_zero]
  | succ hops inductionHypothesis =>
      cases first : next a with
      | none =>
          rw [walk_stuck first] at reached
          contradiction
      | some d =>
          rw [walk_succ first] at reached ⊢
          exact inductionHypothesis reached

namespace Forwarding

/-! ## Following a table -/

theorem follow_eq_iff (t : Forwarding) (limit : Nat) :
    t.follow limit a = b ↔
      (∃ hops < limit, walk t.lookup hops a = some b ∧ t.lookup b = none) ∨
        walk t.lookup limit a = some b := by
  induction limit generalizing a with
  | zero => simp [follow, walk_zero]
  | succ limit inductionHypothesis =>
      rw [follow]
      cases leads : t.lookup a with
      | none =>
          rw [walk_stuck leads]
          dsimp only
          constructor
          · rintro rfl
            exact Or.inl ⟨0, Nat.succ_pos limit, walk_zero _ _, leads⟩
          · rintro (⟨hops, _, reached, _⟩ | reached)
            · cases hops with
              | zero => exact Option.some.inj reached
              | succ hops =>
                  rw [walk_stuck leads] at reached
                  contradiction
            · contradiction
      | some c =>
          rw [walk_succ leads]
          dsimp only
          rw [inductionHypothesis]
          constructor
          · rintro (⟨hops, below, reached, ends⟩ | cut)
            · exact Or.inl ⟨hops + 1, Nat.succ_lt_succ below, by rwa [walk_succ leads], ends⟩
            · exact Or.inr cut
          · rintro (⟨hops, below, reached, ends⟩ | cut)
            · cases hops with
              | zero =>
                  cases reached
                  rw [leads] at ends
                  contradiction
              | succ hops =>
                  rw [walk_succ leads] at reached
                  exact Or.inl ⟨hops, Nat.lt_of_succ_lt_succ below, reached, ends⟩
            · exact Or.inr cut

theorem mem_keys_of_lookup (t : Forwarding) (x : Nat) (leads : t.lookup x ≠ none) :
    x ∈ t.entries.map Prod.fst := by
  apply Classical.byContradiction
  intro absent
  apply leads
  rw [lookup, List.lookup_eq_none_iff]
  intro entry member
  have differs : x ≠ entry.1 := fun equal =>
    absent (List.mem_map.mpr ⟨entry, member, equal.symm⟩)
  simpa using differs

/-- An address is forwarded to the end of its chain, or along one hop more than
the table has entries. -/
theorem forward_eq_iff (t : Forwarding) :
    t.forward a = b ↔
      (∃ hops, walk t.lookup hops a = some b ∧ t.lookup b = none) ∨
        walk t.lookup (t.entries.length + 1) a = some b := by
  rw [forward, follow_eq_iff]
  constructor
  · rintro (⟨hops, _, ended⟩ | cut)
    · exact Or.inl ⟨hops, ended⟩
    · exact Or.inr cut
  · rintro (⟨hops, reached, ends⟩ | cut)
    · have atMost := walk_le_of_ends t.mem_keys_of_lookup reached ends
      rw [List.length_map] at atMost
      exact Or.inl ⟨hops, Nat.lt_succ_of_le atMost, reached, ends⟩
    · exact Or.inr cut

/-! ## Writing a table -/

theorem lookup_entry (entry : Nat × Nat) (rest : List (Nat × Nat)) (x : Nat) :
    (entry :: rest).lookup x = if x = entry.1 then some entry.2 else rest.lookup x := by
  rcases entry with ⟨old, new⟩
  by_cases same : x = old
  · simp [same]
  · rw [List.lookup_cons, if_neg same, beq_eq_false_iff_ne.mpr same]

theorem lookup_put (old new : Nat) (entries : List (Nat × Nat)) (x : Nat) :
    (put old new entries).lookup x = if x = old then some new else entries.lookup x := by
  induction entries with
  | nil => exact lookup_entry (old, new) [] x
  | cons entry rest inductionHypothesis =>
      rw [put]
      by_cases replaced : entry.1 = old
      · rw [if_pos replaced, lookup_entry, lookup_entry, replaced]
        by_cases same : x = old
        · rw [if_pos same, if_pos same]
        · rw [if_neg same, if_neg same, if_neg same]
      · rw [if_neg replaced, lookup_entry, lookup_entry, inductionHypothesis]
        by_cases same : x = old
        · have differs : x ≠ entry.1 := fun equal => replaced (equal.symm.trans same)
          rw [if_neg differs, if_pos same, if_pos same]
        · rw [if_neg same, if_neg same]

theorem keys_put (old new : Nat) (entries : List (Nat × Nat)) :
    (put old new entries).map Prod.fst =
      if old ∈ entries.map Prod.fst then entries.map Prod.fst
      else entries.map Prod.fst ++ [old] := by
  induction entries with
  | nil => rfl
  | cons entry rest inductionHypothesis =>
      rw [put]
      by_cases replaced : entry.1 = old
      · simp [replaced]
      · rw [if_neg replaced, List.map_cons, inductionHypothesis]
        by_cases known : old ∈ rest.map Prod.fst
        · simp [known]
        · simp [known, Ne.symm replaced]

end Forwarding

/-! ## Hops -/

/-- Where something ends up that starts at an address and makes each hop that
leaves the place where it is. -/
def replay (hops : List (Nat × Nat)) (a : Nat) : Nat :=
  hops.foldl (fun a hop => if a = hop.1 then hop.2 else a) a

/-- Where the last hop out of an address leads. -/
def lastHop (hops : List (Nat × Nat)) (a : Nat) : Option Nat :=
  hops.reverse.lookup a

/-- No hop leads to an address that an earlier one left. -/
def NoReuse (hops : List (Nat × Nat)) : Prop :=
  hops.Pairwise fun earlier later => later.2 ≠ earlier.1

/-- The chain of last hops from an address ends at another one, or runs in a
circle and is there when it is cut off, one hop after as many as there are
addresses to leave. -/
def LeadsTo (hops : List (Nat × Nat)) (a b : Nat) : Prop :=
  (∃ k, walk (lastHop hops) k a = some b ∧ lastHop hops b = none) ∨
    walk (lastHop hops) ((hops.map Prod.fst).dedup.length + 1) a = some b

theorem replay_append (hops : List (Nat × Nat)) (old new a : Nat) :
    replay (hops ++ [(old, new)]) a =
      if replay hops a = old then new else replay hops a := by
  rw [replay, List.foldl_append]
  rfl

theorem lastHop_append (hops : List (Nat × Nat)) (old new : Nat) :
    lastHop (hops ++ [(old, new)]) = Function.update (lastHop hops) old (some new) := by
  funext x
  rw [lastHop, List.reverse_append, List.reverse_singleton, List.singleton_append,
    Forwarding.lookup_entry]
  by_cases same : x = old
  · rw [if_pos same, same, Function.update_self]
  · rw [if_neg same, Function.update_of_ne same]
    rfl

theorem lastHop_eq_none_iff {hops : List (Nat × Nat)} :
    lastHop hops a = none ↔ ∀ hop ∈ hops, hop.1 ≠ a := by
  rw [lastHop, List.lookup_eq_none_iff]
  constructor
  · intro absent hop member equal
    have differs := absent hop (List.mem_reverse.mpr member)
    simp [equal] at differs
  · intro absent hop member
    have differs := absent hop (List.mem_reverse.mp member)
    simpa using Ne.symm differs

/-- A chain leads back to where it starts if no hop leaves it, or in a circle that
is cut off there. -/
theorem leadsTo_self_iff {hops : List (Nat × Nat)} :
    LeadsTo hops a a ↔ (∀ hop ∈ hops, hop.1 ≠ a) ∨
      walk (lastHop hops) ((hops.map Prod.fst).dedup.length + 1) a = some a := by
  have stays : (∃ k, walk (lastHop hops) k a = some a ∧ lastHop hops a = none) ↔
      ∀ hop ∈ hops, hop.1 ≠ a := by
    rw [← lastHop_eq_none_iff]
    constructor
    · rintro ⟨_, _, ends⟩
      exact ends
    · exact fun ends => ⟨0, walk_zero _ _, ends⟩
  rw [LeadsTo, stays]

namespace Forwarding

/-- The table holds the last hop out of every address that was left, and has
counted its entries. -/
structure Records (t : Forwarding) (hops : List (Nat × Nat)) : Prop where
  lookup : t.lookup = lastHop hops
  nodup : (t.entries.map Prod.fst).Nodup
  keys : ∀ x, x ∈ t.entries.map Prod.fst ↔ x ∈ hops.map Prod.fst
  counted : t.count = t.entries.length

namespace Records

variable {t : Forwarding} {hops : List (Nat × Nat)}

theorem empty (generation : Nat) : Records (Forwarding.empty generation) [] where
  lookup := rfl
  nodup := List.nodup_nil
  keys := fun _ => Iff.rfl
  counted := rfl

theorem close (records : t.Records hops) : t.close.Records hops where
  lookup := records.lookup
  nodup := records.nodup
  keys := records.keys
  counted := records.counted

/-- There is one entry for each address that was left. -/
theorem length_entries (records : t.Records hops) :
    t.entries.length = (hops.map Prod.fst).dedup.length := by
  have same : (t.entries.map Prod.fst).Perm (hops.map Prod.fst).dedup := by
    apply (List.perm_ext_iff_of_nodup records.nodup (List.nodup_dedup _)).mpr
    intro x
    rw [records.keys, List.mem_dedup]
  rw [← same.length_eq, List.length_map]

/-- Each address that was left is counted once. -/
theorem size_eq (records : t.Records hops) : t.size = (hops.map Prod.fst).dedup.length :=
  records.counted.trans records.length_entries

/-- An address is looked up in vain exactly if there is no entry for it. -/
theorem lookup_isNone_iff (t : Forwarding) (x : Nat) :
    (t.lookup x).isNone = true ↔ x ∉ t.entries.map Prod.fst := by
  rw [Option.isNone_iff_eq_none]
  constructor
  · intro absent isKey
    rcases List.mem_map.mp isKey with ⟨entry, member, rfl⟩
    have differs := List.lookup_eq_none_iff.mp absent entry member
    simp at differs
  · intro unknown
    apply Classical.byContradiction
    exact fun leads => unknown (t.mem_keys_of_lookup x leads)

theorem add (records : t.Records hops) (isOpen : t.complete = false) {old new : Nat}
    (differ : old ≠ new) : (t.add old new).Records (hops ++ [(old, new)]) := by
  have added : t.add old new =
      { t with
        entries := put old new t.entries
        count := if (t.lookup old).isNone then t.count + 1 else t.count } := by
    simp [Forwarding.add, isOpen, differ]
  rw [added]
  constructor
  · rw [lastHop_append]
    funext x
    change (put old new t.entries).lookup x = _
    rw [lookup_put]
    by_cases same : x = old
    · rw [if_pos same, same, Function.update_self]
    · rw [if_neg same, Function.update_of_ne same, ← records.lookup]
      rfl
  · change ((put old new t.entries).map Prod.fst).Nodup
    rw [keys_put]
    split
    · exact records.nodup
    · rename_i unknown
      rw [← List.concat_eq_append]
      exact records.nodup.concat unknown
  · intro x
    change x ∈ (put old new t.entries).map Prod.fst ↔ _
    rw [keys_put, List.map_append, List.mem_append, ← records.keys]
    split
    · rename_i known
      constructor
      · exact Or.inl
      · rintro (isKey | isNew)
        · exact isKey
        · simp only [List.map_singleton, List.mem_singleton] at isNew
          rwa [isNew]
    · simp
  · change (if (t.lookup old).isNone = true then t.count + 1 else t.count) =
      (put old new t.entries).length
    rw [← List.length_map (f := Prod.fst), keys_put, records.counted]
    by_cases known : old ∈ t.entries.map Prod.fst
    · rw [if_pos known, if_neg fun absent => (lookup_isNone_iff t old).mp absent known,
        List.length_map]
    · rw [if_neg known, if_pos ((lookup_isNone_iff t old).mpr known), List.length_append,
        List.length_map, List.length_singleton]

/-- Where an address is forwarded to, in terms of the hops. -/
theorem forward_eq_iff (records : t.Records hops) : t.forward a = b ↔ LeadsTo hops a b := by
  rw [Forwarding.forward_eq_iff, records.lookup, records.length_entries]
  exact Iff.rfl

end Records

end Forwarding

end CodeLayout
