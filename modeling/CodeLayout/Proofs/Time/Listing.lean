import CodeLayout.Proofs.Time.Grammar

/-!
# Listed times

The times of a set, or any times, are listed in a text with commas between them.  Reading
the text gives the set that is made from the times directly; both depend on nothing but
which times occur.  A set that is listed is read back.
-/

namespace CodeLayout

namespace TimeOfDay

variable {n : Nat}

theorem utf8ByteSize_padded (small : n < 100) : (Digits.padded 2 n).utf8ByteSize = 2 := by
  have all : ∀ tens < 10, ∀ ones < 10,
      (String.ofList [Digits.digitChar tens, Digits.digitChar ones]).utf8ByteSize = 2 := by decide
  have written : Digits.padded 2 n =
      String.ofList [Digits.digitChar (n / 10), Digits.digitChar (n % 10)] := by
    rw [← Digits.toList_padded_two small, String.ofList_toList]
  rw [written]
  exact all _ (by omega) _ (by omega)

theorem comma_not_mem_padded (small : n < 100) : ',' ∉ (Digits.padded 2 n).toList := by
  have all : ∀ digit < 10, Digits.digitChar digit ≠ ',' := by decide
  rw [Digits.toList_padded_two small]
  simp only [List.mem_cons, List.not_mem_nil, or_false, not_or]
  exact ⟨(all _ (by omega)).symm, (all _ (by omega)).symm⟩

theorem utf8ByteSize_display (t : TimeOfDay) : t.display.utf8ByteSize = 5 := by
  have colon : ":".utf8ByteSize = 1 := rfl
  rw [display, String.utf8ByteSize_append, String.utf8ByteSize_append, colon,
    utf8ByteSize_padded (by omega), utf8ByteSize_padded (by omega)]

theorem display_ne_empty (t : TimeOfDay) : t.display ≠ "" := by
  intro empty
  have size := t.utf8ByteSize_display
  rw [empty] at size
  contradiction

theorem comma_not_mem_display (t : TimeOfDay) : ',' ∉ t.display.toList := by
  have colon : ',' ≠ ':' := by decide
  rw [toList_display, List.mem_append, List.mem_cons]
  simp only [colon, false_or, not_or]
  exact ⟨comma_not_mem_padded (by omega), comma_not_mem_padded (by omega)⟩

end TimeOfDay

namespace TriggerSet

variable {s : TriggerSet} {text : String} {times : List TimeOfDay}

/-- Times as a text: commas stand between them. -/
def listing (times : List TimeOfDay) : String :=
  ",".intercalate (times.map TimeOfDay.display)

/-! ## Times as a text -/

/-- A text of times comes apart into them. -/
theorem listed_listing (given : times ≠ []) :
    listed (listing times) = times.map TimeOfDay.display := by
  have fields : ((listing times).toList.splitOn ',').map String.ofList =
      times.map TimeOfDay.display := by
    have comma : ",".toList = [','] := rfl
    have plain : ∀ field ∈ (times.map TimeOfDay.display).map String.toList, ',' ∉ field := by
      simp only [List.map_map, List.forall_mem_map]
      exact fun t _ => t.comma_not_mem_display
    rw [listing, String.toList_intercalate, comma,
      List.splitOn_intercalate ',' plain (by simpa using given)]
    simp [Function.comp_def]
  have last : (times.map TimeOfDay.display).getLast? ≠ some "" := by
    intro bare
    rcases List.mem_map.mp (List.mem_of_getLast? bare) with ⟨t, _, empty⟩
    exact t.display_ne_empty empty
  rw [listed, fields, if_neg fun both => last both.2]

/-- Each time takes five bytes, and a comma stands between two. -/
theorem utf8ByteSize_listing (times : List TimeOfDay) :
    (listing times).utf8ByteSize = 6 * times.length - 1 := by
  have comma : ",".utf8ByteSize = 1 := rfl
  induction times with
  | nil => rfl
  | cons t rest inductionHypothesis =>
      cases rest with
      | nil => simp [listing, t.utf8ByteSize_display]
      | cons u rest =>
          have more : (u :: rest).map TimeOfDay.display ≠ [] := by simp
          rw [listing] at inductionHypothesis
          rw [listing, List.map_cons, String.intercalate_cons_of_ne_nil more,
            String.utf8ByteSize_append, String.utf8ByteSize_append, t.utf8ByteSize_display, comma,
            inductionHypothesis]
          simp only [List.length_cons]
          omega

theorem admissible_listing (given : times ≠ []) (short : 6 * times.length - 1 ≤ 1024) :
    Admissible (listing times) where
  short := by rwa [utf8ByteSize_listing]
  filled empty := by
    have size := utf8ByteSize_listing times
    have some := List.length_pos_iff.mpr given
    rw [empty, String.utf8ByteSize_empty] at size
    omega

/-! ## Reading listed times -/

theorem parse_listing (given : times ≠ []) (short : 6 * times.length - 1 ≤ 1024) :
    (parse (listing times)).1 = .ok (ofTimes times) := by
  have isEarliest := isEarliest_ofTimes times
  rw [(Reads.times (admissible_listing given short) (listed_listing given) isEarliest
    (isEarliest.filled given)).parse_eq]

/-- The set that is read from a text is made from the times that its tokens display. -/
theorem exists_times_of_parse (read : (parse text).1 = .ok s) :
    ∃ times : List TimeOfDay, times ≠ [] ∧ listed text = times.map TimeOfDay.display ∧
      s = ofTimes times := by
  rcases exists_reads text with ⟨outcome, reads⟩
  rw [reads.parse_eq] at read
  cases reads with
  | empty _ => contradiction
  | long _ => contradiction
  | senseless _ _ _ => contradiction
  | @times times set admissible told isEarliest filled =>
      cases read
      refine ⟨times, ?_, told, isEarliest.unique (isEarliest_ofTimes times)⟩
      rintro rfl
      exact listed_ne_nil text told

theorem ofTimes_congr {others : List TimeOfDay} (same : ∀ t, t ∈ times ↔ t ∈ others) :
    ofTimes times = ofTimes others :=
  ((isEarliest_ofTimes times).congr same).unique (isEarliest_ofTimes others)

/-- The times of a set are the earliest among themselves. -/
theorem ofTimes_ofTimes (times : List TimeOfDay) :
    ofTimes (ofTimes times).times = ofTimes times := by
  have isEarliest := isEarliest_ofTimes times
  have count := isEarliest.count
  have held : (ofTimes times).times.toFinset.card = (ofTimes times).times.length :=
    List.toFinset_card_of_nodup isEarliest.ascending.nodup
  refine (isEarliest_ofTimes _).unique ⟨isEarliest.ascending, fun _ member => member, ?_, ?_⟩
  · rw [held]
    omega
  · exact fun t _ u member left => absurd member left

theorem parse_listing_ofTimes (given : times ≠ []) :
    (parse (listing (ofTimes times).times)).1 = .ok (ofTimes times) := by
  have isEarliest := isEarliest_ofTimes times
  have count := isEarliest.count
  rw [parse_listing (isEarliest.filled given) (by omega), ofTimes_ofTimes]

/-- All in which texts and lists of times agree. -/
structure Agreement (times : List TimeOfDay) : Prop where
  /-- The text of the times gives the set that is made from them. -/
  parsed : times ≠ [] → 6 * times.length - 1 ≤ 1024 →
    (parse (listing times)).1 = .ok (ofTimes times)
  /-- It matters to neither in which order the times occur, and how often. -/
  ofOthers : ∀ others : List TimeOfDay, (∀ t, t ∈ others ↔ t ∈ times) →
    ofTimes others = ofTimes times
  ofText : ∀ text set, (parse text).1 = .ok set →
    (∀ t : TimeOfDay, t.display ∈ listed text ↔ t ∈ times) → set = ofTimes times
  /-- The text of a set gives it back. -/
  reparsed : times ≠ [] → (parse (listing (ofTimes times).times)).1 = .ok (ofTimes times)
  reread : ∀ text set, (parse text).1 = .ok set → (parse (listing set.times)).1 = .ok set

/-- Whether times are given as a text or as a list, the same set comes of them. -/
theorem agreement_ofTimes (times : List TimeOfDay) : Agreement times where
  parsed := parse_listing
  ofOthers others same := ofTimes_congr same
  ofText text set read same := by
    rcases exists_times_of_parse read with ⟨told, _, listed, rfl⟩
    refine ofTimes_congr fun t => ?_
    rw [← same t, listed, List.mem_map_of_injective TimeOfDay.display_injective]
  reparsed := parse_listing_ofTimes
  reread text set read := by
    rcases exists_times_of_parse read with ⟨told, given, _, rfl⟩
    exact parse_listing_ofTimes given

/-- The text of the times and their list give the three times in order, and these are
listed and read again. -/
theorem agreement_shuffled :
    shuffled ≠ [] ∧ 6 * shuffled.length - 1 ≤ 1024 ∧
      listing shuffled = "13:00,07:30,13:00,00:15" ∧
      (parse "13:00,07:30,13:00,00:15").1 = .ok ⟨[⟨0, 15⟩, ⟨7, 30⟩, ⟨13, 0⟩]⟩ ∧
      (parse "00:15,07:30,13:00").1 = .ok ⟨[⟨0, 15⟩, ⟨7, 30⟩, ⟨13, 0⟩]⟩ := by
  have agrees := agreement_ofTimes shuffled
  have text : listing shuffled = "13:00,07:30,13:00,00:15" := by decide +kernel
  have again : listing [⟨0, 15⟩, ⟨7, 30⟩, ⟨13, 0⟩] = "00:15,07:30,13:00" := by
    decide +kernel
  have some : shuffled ≠ [] := by decide +kernel
  have short : 6 * shuffled.length - 1 ≤ 1024 := by decide +kernel
  have parsed := agrees.parsed some short
  have reparsed := agrees.reparsed some
  rw [text, ofTimes_shuffled] at parsed
  rw [ofTimes_shuffled, again] at reparsed
  exact ⟨some, short, text, parsed, reparsed⟩

end TriggerSet

end CodeLayout
