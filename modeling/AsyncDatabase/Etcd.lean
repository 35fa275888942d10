import AsyncDatabase.Library.Json
import AsyncDatabase.Scan

/-!
# Ranges and watches of etcd

The end of the range of a prefix and the handler of a watch (`etcd/etcd_client.cpp`), beside the end
a scan gives a prefix of its own (`scan/scan.cpp`). `prefix_bounds` says that both ends bound
exactly what begins with the prefix, and `watch_any_cut` that a watch depends on its stream and not
on the pieces it came in.
-/

namespace AsyncDatabase

open Bytes (ascii)

namespace Etcd

/-- `"\0"` is how etcd spells "to the end of the keyspace". -/
def rangeEnd (text : Bytes) : Bytes :=
  match text.reverse.dropWhile (· = 0xff) with
  | [] => [0]
  | last :: before => before.reverse ++ [last + 1]

/-! ### The handler of a watch -/

variable (J : JsonCodec)

/-- Whether a watch goes on after one of its answers. A line that is not a document says nothing. -/
def stillWatching (line : Bytes) : Bool :=
  match J.parse line with
  | none => true
  | some answer =>
    if answer.isObject = false then true
    else if (answer.member? (ascii "error")).isSome then false
    else
      match (answer.member? (ascii "result")).bind (Json.member? (ascii "canceled")) with
      | none => true
      | some canceled => !canceled.isTrue

/-- No byte of a line but blanks. -/
def isBlank (line : Bytes) : Bool := line.all fun byte => byte = 32 || byte = 9 || byte = 13

/-- The line in front of the first newline, and what is behind it. -/
def cutLine (text : Bytes) : Option (Bytes × Bytes) :=
  if 10 ∈ text then some (text.takeWhile (· ≠ 10), (text.dropWhile (· ≠ 10)).drop 1) else none

theorem length_cutLine_lt {text line rest : Bytes} (h : cutLine text = some (line, rest)) :
    rest.length < text.length := by
  unfold cutLine at h
  split_ifs at h with hmem
  obtain ⟨-, rfl⟩ := Prod.mk.inj (Option.some.inj h)
  have hne : text.dropWhile (· ≠ 10) ≠ [] := by
    rw [Ne, List.dropWhile_eq_nil_iff]
    intro hall
    simpa using hall 10 hmem
  have hle : (text.dropWhile (· ≠ 10)).length ≤ text.length := (List.dropWhile_suffix _).length_le
  have hpos := List.length_pos_of_ne_nil hne
  rw [List.length_drop]
  omega

/-- What a watch has got to. -/
structure Watched where
  /-- What has come of a line that has not ended. -/
  begun : Bytes := []
  /-- How often `changed` was called. -/
  changes : ℕ := 0
  /-- The line that ended the watch. -/
  ended : Option Bytes := none

/-- The loop over the lines that have come. -/
def takeLines (changes : ℕ) (text : Bytes) : Watched :=
  match h : cutLine text with
  | none => { begun := text, changes }
  | some (line, rest) =>
    if isBlank line then takeLines changes rest
    else if stillWatching J line = false then { begun := rest, changes, ended := some line }
    else takeLines (changes + 1) rest
termination_by text.length
decreasing_by all_goals exact length_cutLine_lt h

/-- A piece of the stream, which is handed to nobody once the watch has ended. -/
def receive (s : Watched) (piece : Bytes) : Watched :=
  if s.ended.isSome then s else takeLines J s.changes (s.begun ++ piece)

/-- A watch of a stream that comes in these pieces. -/
def watch (pieces : List Bytes) : Watched := pieces.foldl (receive J) {}

/-! ### Lines of a stream -/

/-- The lines of a stream that have ended, and what has come of the one that has not. -/
def lines : Bytes → List Bytes × Bytes
  | [] => ([], [])
  | byte :: stream =>
    let later := lines stream
    if byte = 10 then ([] :: later.1, later.2)
    else
      match later.1 with
      | [] => ([], byte :: later.2)
      | line :: lines => ((byte :: line) :: lines, later.2)

theorem lines_of_not_mem {text : Bytes} (h : 10 ∉ text) : lines text = ([], text) := by
  induction text with
  | nil => rfl
  | cons byte text ih =>
    rw [List.mem_cons, not_or] at h
    rw [lines, ih h.2]
    exact if_neg (Ne.symm h.1)

theorem lines_line {line : Bytes} (h : 10 ∉ line) (rest : Bytes) :
    lines (line ++ 10 :: rest) = (line :: (lines rest).1, (lines rest).2) := by
  induction line with
  | nil => rfl
  | cons byte line ih =>
    rw [List.mem_cons, not_or] at h
    rw [List.cons_append, lines, ih h.2]
    exact if_neg (Ne.symm h.1)

/-- What has come of a line goes on with what comes next. -/
theorem lines_append (a b : Bytes) :
    lines (a ++ b) =
      ((lines a).1 ++ (lines ((lines a).2 ++ b)).1, (lines ((lines a).2 ++ b)).2) := by
  induction a with
  | nil => rfl
  | cons byte a ih =>
    rw [List.cons_append, lines, ih]
    by_cases hbyte : byte = 10
    · rw [if_pos hbyte, lines, if_pos hbyte]
      rfl
    · rw [if_neg hbyte, lines, if_neg hbyte]
      dsimp only
      cases hlines : (lines a).1 with
      | nil =>
        rw [List.nil_append, List.nil_append, List.cons_append, lines, if_neg hbyte]
      | cons line ls => rfl

/-- The lines of a stream that say something. -/
def answers (stream : Bytes) : List Bytes := (lines stream).1.filter fun line => !isBlank line

/-- A loop over the lines either finds none that has ended or takes the first. -/
theorem cutLine_cases (text : Bytes) :
    (cutLine text = none ∧ 10 ∉ text) ∨
      ∃ line rest, cutLine text = some (line, rest) ∧ text = line ++ 10 :: rest ∧ 10 ∉ line := by
  unfold cutLine
  split_ifs with hmem
  · right
    have hline : 10 ∉ text.takeWhile (· ≠ 10) := by
      intro hin
      simpa using List.mem_takeWhile_imp hin
    refine ⟨_, _, rfl, ?_, hline⟩
    have hne : text.dropWhile (· ≠ 10) ≠ [] := by
      rw [Ne, List.dropWhile_eq_nil_iff]
      intro hall
      simpa using hall 10 hmem
    obtain ⟨first, rest, hsplit⟩ := List.exists_cons_of_ne_nil hne
    have hfirst : first = 10 := by
      have hhead := List.head?_dropWhile_not (· ≠ (10 : UInt8)) text
      rw [hsplit] at hhead
      simpa using hhead
    have hjoin := List.takeWhile_append_dropWhile (p := (· ≠ (10 : UInt8))) (l := text)
    rw [hsplit, hfirst] at hjoin
    rw [hsplit]
    exact hjoin.symm
  · exact Or.inl ⟨rfl, hmem⟩

/-- What a watch knows of the stream it has read. -/
structure Reads (s : Watched) (stream : Bytes) : Prop where
  changes : s.changes = ((answers stream).takeWhile (stillWatching J)).length
  ended : s.ended = (answers stream).find? fun line => !stillWatching J line
  begun : s.ended = none → s.begun = (lines stream).2

theorem answers_of_not_mem {text : Bytes} (h : 10 ∉ text) : answers text = [] := by
  rw [answers, lines_of_not_mem h]
  rfl

theorem answers_line {line : Bytes} (h : 10 ∉ line) (rest : Bytes) :
    answers (line ++ 10 :: rest) =
      if isBlank line then answers rest else line :: answers rest := by
  rw [answers, lines_line h, List.filter_cons]
  cases isBlank line <;> rfl

/-- The loop reads what has come. -/
theorem takeLines_reads (changes : ℕ) (text : Bytes) :
    (takeLines J changes text).changes =
        changes + ((answers text).takeWhile (stillWatching J)).length ∧
      (takeLines J changes text).ended = (answers text).find? (fun line => !stillWatching J line) ∧
      ((takeLines J changes text).ended = none →
        (takeLines J changes text).begun = (lines text).2) := by
  induction hn : text.length using Nat.strong_induction_on generalizing changes text with
  | _ n ih =>
    rcases cutLine_cases text with ⟨hcut, hmem⟩ | ⟨line, rest, hcut, hsplit, hline⟩
    · -- no line is whole, and all of the text is the beginning of one
      have htake : takeLines J changes text = { begun := text, changes } := by
        rw [takeLines]
        split
        · rfl
        · rename_i hother
          rw [hcut] at hother
          cases hother
      rw [htake, answers_of_not_mem hmem, lines_of_not_mem hmem]
      exact ⟨rfl, rfl, fun _ => rfl⟩
    · have hlt : rest.length < n := hn ▸ length_cutLine_lt hcut
      -- the first line of the text, and what is behind it
      have htake : takeLines J changes text = if isBlank line then takeLines J changes rest
          else if stillWatching J line = false then { begun := rest, changes, ended := some line }
          else takeLines J (changes + 1) rest := by
        rw [takeLines]
        split
        · rename_i hother
          rw [hcut] at hother
          cases hother
        · rename_i hother
          rw [hcut] at hother
          obtain ⟨rfl, rfl⟩ := Prod.mk.inj (Option.some.inj hother)
          rfl
      rw [htake, hsplit, answers_line hline, lines_line hline]
      by_cases hblank : isBlank line = true
      · -- a blank line keeps the stream open and is no answer
        rw [if_pos hblank, if_pos hblank]
        exact ih _ hlt changes rest rfl
      · rw [if_neg hblank, if_neg hblank]
        by_cases hstill : stillWatching J line = false
        · -- the answer that ends the watch
          rw [if_pos hstill, List.takeWhile_cons_of_neg (by simp [hstill]),
            List.find?_cons_of_pos (by simp [hstill])]
          exact ⟨rfl, rfl, fun h => by cases h⟩
        · rw [if_neg hstill]
          rw [Bool.not_eq_false] at hstill
          obtain ⟨hchanges, hended, hbegun⟩ := ih _ hlt (changes + 1) rest rfl
          rw [List.takeWhile_cons_of_pos hstill, List.find?_cons_of_neg (by simp [hstill])]
          refine ⟨?_, hended, hbegun⟩
          rw [hchanges, List.length_cons]
          omega

theorem answers_append (a b : Bytes) :
    answers (a ++ b) = answers a ++ answers ((lines a).2 ++ b) := by
  rw [answers, lines_append, List.filter_append]
  rfl

/-- One piece more. -/
theorem Reads.receive {s : Watched} {stream : Bytes} (h : Reads J s stream) (piece : Bytes) :
    Reads J (receive J s piece) (stream ++ piece) := by
  have hanswers := answers_append stream piece
  unfold Etcd.receive
  cases hended : s.ended with
  | some line =>
    -- what comes behind the end is not read
    rw [Option.isSome_some, if_pos rfl]
    have hfound : (answers stream).find? (fun line => !stillWatching J line) = some line :=
      h.ended.symm.trans hended
    refine ⟨?_, ?_, fun hnone => absurd (hnone.symm.trans hended) (by simp)⟩
    · rw [h.changes, hanswers, List.takeWhile_append, if_neg]
      intro hall
      have hsame : (answers stream).takeWhile (stillWatching J) = answers stream :=
        (List.takeWhile_prefix _).eq_of_length hall
      have hmem := List.mem_of_find?_eq_some hfound
      rw [← hsame] at hmem
      have hstops := List.find?_some hfound
      simp [List.mem_takeWhile_imp hmem] at hstops
    · rw [hanswers, List.find?_append, hfound, hended]
      rfl
  | none =>
    rw [Option.isSome_none, if_neg Bool.false_ne_true]
    obtain ⟨hchanges, hended', hbegun⟩ := takeLines_reads J s.changes (s.begun ++ piece)
    rw [h.begun hended] at hchanges hended' hbegun
    have hfound : (answers stream).find? (fun line => !stillWatching J line) = none :=
      h.ended.symm.trans hended
    have hall : (answers stream).takeWhile (stillWatching J) = answers stream := by
      refine List.takeWhile_eq_self_iff.mpr fun line hline => ?_
      simpa using List.find?_eq_none.mp hfound line hline
    rw [h.begun hended]
    refine ⟨?_, ?_, fun hnone => ?_⟩
    · rw [hchanges, h.changes, hanswers, List.takeWhile_append, hall,
        if_pos rfl, List.length_append]
    · rw [hended', hanswers, List.find?_append, hfound, Option.none_or]
    · rw [hbegun hnone, lines_append stream piece]

theorem reads_watch (pieces : List Bytes) : Reads J (watch J pieces) pieces.flatten := by
  have hfold : ∀ (pieces : List Bytes) (s : Watched) (stream : Bytes), Reads J s stream →
      Reads J (pieces.foldl (receive J) s) (stream ++ pieces.flatten) := by
    intro pieces
    induction pieces with
    | nil =>
      intro s stream h
      rw [List.flatten_nil, List.append_nil]
      exact h
    | cons piece pieces ih =>
      intro s stream h
      rw [List.flatten_cons, ← List.append_assoc]
      exact ih _ _ (h.receive J piece)
  exact hfold pieces {} [] ⟨rfl, rfl, fun _ => rfl⟩

/-- **A watch depends on its stream.** However that is cut, `changed` is called once for each line
that has ended and says something, up to the first that ends the watch, and it is that line the
watch stops at. -/
theorem watch_any_cut (J : JsonCodec) (pieces : List Bytes) :
    (watch J pieces).changes =
        ((answers pieces.flatten).takeWhile (stillWatching J)).length ∧
      (watch J pieces).ended = (answers pieces.flatten).find? (fun line => !stillWatching J line) ∧
      ∀ other : List Bytes, other.flatten = pieces.flatten →
        (watch J other).changes = (watch J pieces).changes ∧
          (watch J other).ended = (watch J pieces).ended := by
  have h := reads_watch J pieces
  refine ⟨h.changes, h.ended, fun other hsame => ?_⟩
  have hother := reads_watch J other
  rw [hsame] at hother
  exact ⟨hother.changes.trans h.changes.symm, hother.ended.trans h.ended.symm⟩

/-! ### What begins with a prefix -/

/-- No string with the greatest of bytes in front is passed by one that does not begin so. -/
theorem not_lt_replicate_iff (k : ℕ) (s : Bytes) :
    ¬s < List.replicate k 0xff ↔ List.replicate k 0xff <+: s := by
  induction k generalizing s with
  | zero => simp
  | succ k ih =>
    rw [List.replicate_succ]
    cases s with
    | nil => simp
    | cons x s =>
      have hle : ¬(0xff : UInt8) < x := by
        rw [UInt8.lt_iff_toNat_lt]
        exact not_lt.mpr (Nat.le_of_lt_succ x.toNat_lt)
      rw [List.cons_lt_cons_iff, List.cons_prefix_cons, ← ih]
      by_cases hx : x = 0xff
      · simp [hx]
      · have hlt : x < 0xff := by
          rw [UInt8.lt_iff_toNat_lt] at hle ⊢
          exact lt_of_le_of_ne (not_lt.mp hle) fun heq => hx (UInt8.toNat_inj.mp heq)
        simp [hlt, Ne.symm hx]

/-- The last byte that can be raised bounds what begins with the string it ends. -/
theorem between_iff (before : Bytes) {last : UInt8} (hlast : last ≠ 0xff) (k : ℕ) (s : Bytes) :
    (¬s < before ++ last :: List.replicate k 0xff ∧ s < before ++ [last + 1]) ↔
      before ++ last :: List.replicate k 0xff <+: s := by
  -- the byte that is raised by one does not wrap around
  have hraised : (last + 1).toNat = last.toNat + 1 := by
    have hlt : last.toNat < 255 := by
      refine lt_of_le_of_ne (Nat.le_of_lt_succ last.toNat_lt) fun heq => hlast ?_
      exact UInt8.toNat_inj.mp heq
    rw [UInt8.toNat_add]
    exact Nat.mod_eq_of_lt (Nat.succ_lt_succ hlt)
  induction before generalizing s with
  | nil =>
    cases s with
    | nil => simp
    | cons x s =>
      -- the byte that is raised: the same one, behind which nothing is above all ones
      rw [List.nil_append, List.nil_append, List.cons_lt_cons_iff, List.cons_lt_cons_iff,
        List.cons_prefix_cons, ← not_lt_replicate_iff]
      simp only [UInt8.lt_iff_toNat_lt, hraised, ← UInt8.toNat_inj,
        List.not_lt_nil, and_false, or_false]
      constructor
      · rintro ⟨hnot, hlt⟩
        have heq : last.toNat = x.toNat := by omega
        exact ⟨heq, fun hs => hnot (Or.inr ⟨heq.symm, hs⟩)⟩
      · rintro ⟨heq, hs⟩
        refine ⟨?_, by omega⟩
        rintro (hlt | ⟨-, hlt⟩)
        · omega
        · exact hs hlt
  | cons y before ih =>
    cases s with
    | nil => simp
    | cons x s =>
      -- a byte before it is the same in both bounds
      rw [List.cons_append, List.cons_append, List.cons_lt_cons_iff, List.cons_lt_cons_iff,
        List.cons_prefix_cons]
      refine Iff.trans ?_ (and_congr_right fun _ => ih s)
      simp only [UInt8.lt_iff_toNat_lt, ← UInt8.toNat_inj]
      constructor
      · rintro ⟨hnot, hlt⟩
        have heq : y.toNat = x.toNat := by omega
        refine ⟨heq, fun hs => hnot (Or.inr ⟨heq.symm, hs⟩), ?_⟩
        exact (hlt.resolve_left (by omega)).2
      · rintro ⟨heq, hs, hlt⟩
        refine ⟨?_, Or.inr ⟨heq.symm, hlt⟩⟩
        rintro (hless | ⟨-, hless⟩)
        · omega
        · exact hs hless

/-- A string is a last byte that can be raised with the greatest of bytes behind it, or those
alone. -/
theorem dropWhile_reverse_cases (text : Bytes) :
    (text.reverse.dropWhile (· = 0xff) = [] ∧ text = List.replicate text.length 0xff) ∨
      ∃ before last k, last ≠ 0xff ∧ text.reverse.dropWhile (· = 0xff) = last :: before ∧
        text = before.reverse ++ last :: List.replicate k 0xff := by
  have hjoin := List.takeWhile_append_dropWhile (p := (· = (0xff : UInt8))) (l := text.reverse)
  obtain ⟨k, hfront⟩ : ∃ k, text.reverse.takeWhile (· = (0xff : UInt8)) =
    List.replicate k 0xff := by
    refine ⟨_, List.eq_replicate_iff.mpr ⟨rfl, fun byte hbyte => ?_⟩⟩
    simpa using List.mem_takeWhile_imp hbyte
  cases hrest : text.reverse.dropWhile (· = (0xff : UInt8)) with
  | nil =>
    left
    refine ⟨rfl, List.eq_replicate_iff.mpr ⟨rfl, fun byte hbyte => ?_⟩⟩
    simpa using List.dropWhile_eq_nil_iff.mp hrest byte (List.mem_reverse.mpr hbyte)
  | cons last before =>
    right
    refine ⟨before, last, k, ?_, rfl, ?_⟩
    · have hhead := List.head?_dropWhile_not (· = (0xff : UInt8)) text.reverse
      rw [hrest] at hhead
      simpa using hhead
    · rw [hrest, hfront] at hjoin
      have htext := congrArg List.reverse hjoin
      rw [List.reverse_reverse] at htext
      rw [← htext]
      simp

/-- **A prefix and its end bound exactly what begins with it**, where a scan reads from one to the
other; and the end of a range of etcd is the same, with a zero byte for none. -/
theorem prefix_bounds (text : Bytes) :
    (∀ e, Scan.prefixEnd text = some e → ∀ s : Bytes, text ≤ s ∧ s < e ↔ text <+: s) ∧
      (Scan.prefixEnd text = none → ∀ s : Bytes, text ≤ s ↔ text <+: s) ∧
      rangeEnd text = (Scan.prefixEnd text).getD [0] ∧ Scan.prefixEnd text ≠ some [0] := by
  unfold Scan.prefixEnd rangeEnd
  rcases dropWhile_reverse_cases text with ⟨hnone, htext⟩ | ⟨before, last, k, hlast, hsome, htext⟩
  · rw [hnone]
    refine ⟨fun e he => (by cases he), fun _ s => ?_, rfl, by simp⟩
    rw [htext]
    exact not_lt_replicate_iff _ s
  · rw [hsome]
    refine ⟨fun e he s => ?_, fun hnone => (by cases hnone), rfl, fun hzero => ?_⟩
    · rw [← Option.some.inj he, htext]
      exact between_iff before.reverse hlast k s
    · -- a byte that was raised is not zero
      have hbytes := congrArg List.getLast? (Option.some.inj hzero)
      rw [List.getLast?_concat] at hbytes
      have hraised : last + 1 = 0 := by simpa using hbytes
      refine hlast ((UInt8.add_sub_cancel last 1).symm.trans ?_)
      rw [hraised]
      rfl

end Etcd

end AsyncDatabase
