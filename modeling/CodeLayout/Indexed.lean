import Mathlib.Data.List.Nodup

/-!
# Indexed maps

Maps that keep the order in which their keys came in.  A key that has a value keeps
its place when the value is set again, and the keys behind one that is taken out move
up.  No key is there twice, which every operation maintains.
-/

namespace CodeLayout

/-- Values by key, the oldest key first. -/
@[ext]
structure Indexed (Key Value : Type) where
  entries : List (Key × Value)
  distinct : (entries.map Prod.fst).Nodup

namespace Indexed

variable {Key Value : Type} [DecidableEq Key]

def empty : Indexed Key Value where
  entries := []
  distinct := List.nodup_nil

def keys (map : Indexed Key Value) : List Key :=
  map.entries.map Prod.fst

def values (map : Indexed Key Value) : List Value :=
  map.entries.map Prod.snd

def get? (map : Indexed Key Value) (key : Key) : Option Value :=
  (map.entries.find? fun entry => entry.1 = key).map Prod.snd

def contains (map : Indexed Key Value) (key : Key) : Bool :=
  (map.get? key).isSome

/-- Set the value of a key where it stands; a new key goes to the end. -/
def setEntry (entries : List (Key × Value)) (key : Key) (value : Value) : List (Key × Value) :=
  match entries with
  | [] => [(key, value)]
  | entry :: rest =>
    if entry.1 = key then (key, value) :: rest else entry :: setEntry rest key value

theorem setEntry_of_new {entries : List (Key × Value)} {key : Key}
    (new : key ∉ entries.map Prod.fst) (value : Value) :
    setEntry entries key value = entries ++ [(key, value)] := by
  induction entries with
  | nil => rfl
  | cons entry rest inductionHypothesis =>
      rw [List.map_cons, List.mem_cons, not_or] at new
      rw [setEntry, if_neg (Ne.symm new.1), inductionHypothesis new.2]
      rfl

/-- A key that is there keeps its place. -/
theorem keys_setEntry_of_mem {entries : List (Key × Value)} {key : Key}
    (old : key ∈ entries.map Prod.fst) (value : Value) :
    (setEntry entries key value).map Prod.fst = entries.map Prod.fst := by
  induction entries with
  | nil => contradiction
  | cons entry rest inductionHypothesis =>
      rw [setEntry]
      split
      · rename_i same
        simp [same]
      · rename_i other
        have inRest : key ∈ rest.map Prod.fst := by
          simpa [Ne.symm other] using old
        simp [inductionHypothesis inRest]

theorem nodup_setEntry {entries : List (Key × Value)} (distinct : (entries.map Prod.fst).Nodup)
    (key : Key) (value : Value) : ((setEntry entries key value).map Prod.fst).Nodup := by
  by_cases old : key ∈ entries.map Prod.fst
  · rw [keys_setEntry_of_mem old]
    exact distinct
  · rw [setEntry_of_new old, List.map_append, List.map_singleton, ← List.concat_eq_append]
    exact distinct.concat old

def insert (map : Indexed Key Value) (key : Key) (value : Value) : Indexed Key Value where
  entries := setEntry map.entries key value
  distinct := nodup_setEntry map.distinct key value

/-- Take a key out; the others keep their order. -/
def remove (map : Indexed Key Value) (key : Key) : Indexed Key Value where
  entries := map.entries.filter fun entry => entry.1 ≠ key
  distinct := map.distinct.sublist (List.filter_sublist.map _)

/-- Change each value; the change may depend on the key. -/
def mapEntries (map : Indexed Key Value) (change : Key → Value → Value) : Indexed Key Value where
  entries := map.entries.map fun entry => (entry.1, change entry.1 entry.2)
  distinct := by
    rw [List.map_map]
    exact map.distinct

/-- Change the value of a key, if it has one. -/
def modify (map : Indexed Key Value) (key : Key) (change : Value → Value) : Indexed Key Value :=
  map.mapEntries fun other value => if other = key then change value else value

@[simp]
theorem entries_remove (map : Indexed Key Value) (key : Key) :
    (map.remove key).entries = map.entries.filter fun entry => entry.1 ≠ key :=
  rfl

omit [DecidableEq Key] in
@[simp]
theorem entries_mapEntries (map : Indexed Key Value) (change : Key → Value → Value) :
    (map.mapEntries change).entries =
      map.entries.map fun entry => (entry.1, change entry.1 entry.2) :=
  rfl

theorem contains_iff {map : Indexed Key Value} {key : Key} :
    map.contains key = true ↔ key ∈ map.keys := by
  simp [contains, get?, keys]

theorem entries_insert_of_new {map : Indexed Key Value} {key : Key} (new : key ∉ map.keys)
    (value : Value) : (map.insert key value).entries = map.entries ++ [(key, value)] :=
  setEntry_of_new new value

end Indexed

end CodeLayout
