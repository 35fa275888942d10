import AsyncDatabase.Library.Bytes

/-!
# Cutting a table into pieces

Where a node would cut a table up (`rocksdb_repository::split_points`) and the pieces a walk makes
of it (`pieces_of` of `transfer/transfer.cpp`). `split_points_ascend` says what the points are, and
`piecesOf_cover` that a key is in one piece.
-/

namespace AsyncDatabase

/-- A file of the store: its smallest key and its size. -/
abbrev StoreFile := Bytes × ℕ

/-- The order files are sorted by. -/
def fileLe (a b : StoreFile) : Bool := a.1 < b.1 ∨ (a.1 = b.1 ∧ a.2 ≤ b.2)

/-- What the loop over the sorted files has got to. -/
structure Cutting where
  taken : ℕ := 0
  next : ℕ := 1
  points : List Bytes := []

/-- One turn of the loop, in numbers of 64 bits: a key that is past the share the next point wants
is that point, unless it is one already. -/
def cut (ways held : ℕ) (s : Cutting) (file : StoreFile) : Cutting :=
  if ways ≤ s.next then s
  else
    let taken := (s.taken + file.2) % 2 ^ 64
    if held * s.next % 2 ^ 64 ≤ taken * ways % 2 ^ 64 ∧ file.1 ≠ [] then
      { taken
        next := s.next + 1
        points := if s.points = [] ∨ s.points.getLast? ≠ some file.1 then s.points ++
          [file.1] else s.points }
    else { s with taken }

def splitPoints (files : List StoreFile) (ways : ℕ) : List Bytes :=
  if ways < 2 then []
  else
    let held := files.foldl (fun held file => (held + file.2) % 2 ^ 64) 0
    let points := ((files.mergeSort fileLe).foldl (cut ways held) {}).points
    if points ≠ [] ∧ points.length = ways then points.dropLast else points

/-- One piece of a share: the keys after one and up to and including another, either of which may be
missing. -/
structure Piece where
  after : Option Bytes := none
  upTo : Option Bytes := none

def piecesOf (points : List Bytes) : List Piece :=
  (List.range (points.length + 1)).map fun i =>
    { after := if 0 < i then points[i - 1]? else none, upTo := points[i]? }

/-- The keys of a piece. -/
def Piece.Has (piece : Piece) (key : Bytes) : Prop :=
  (∀ bound, piece.after = some bound → bound < key) ∧ ∀ bound, piece.upTo = some bound → key ≤ bound

/-! ### The points -/

theorem fileLe_iff {a b : StoreFile} : fileLe a b = true ↔ a.1 < b.1 ∨ (a.1 = b.1 ∧ a.2 ≤ b.2) :=
  decide_eq_true_iff

theorem fst_le_of_fileLe {a b : StoreFile} (h : fileLe a b = true) : a.1 ≤ b.1 := by
  rcases fileLe_iff.mp h with hlt | ⟨heq, -⟩
  · exact List.le_of_lt hlt
  · rw [heq]
    exact List.le_refl _

theorem sorted_files (files : List StoreFile) :
    (files.mergeSort fileLe).Pairwise fun a b => a.1 ≤ b.1 := by
  suffices hsorted : (files.mergeSort fileLe).Pairwise fun a b => fileLe a b = true from
    hsorted.imp fst_le_of_fileLe
  refine List.pairwise_mergeSort ?_ ?_ files
  · intro a b c hab hbc
    rw [fileLe_iff] at *
    rcases hab with hab | ⟨hab, hab'⟩
    · rcases hbc with hbc | ⟨hbc, -⟩
      · exact .inl (List.lt_trans hab hbc)
      · exact .inl (hbc ▸ hab)
    · rcases hbc with hbc | ⟨hbc, hbc'⟩
      · exact .inl (hab ▸ hbc)
      · exact .inr ⟨hab.trans hbc, hab'.trans hbc'⟩
  · intro a b
    rw [Bool.or_eq_true, fileLe_iff, fileLe_iff]
    by_cases hlt : a.1 < b.1
    · exact .inl (.inl hlt)
    · by_cases heq : a.1 = b.1
      · rcases Nat.le_total a.2 b.2 with hle | hle
        · exact .inl (.inr ⟨heq, hle⟩)
        · exact .inr (.inr ⟨heq.symm, hle⟩)
      · exact .inr (.inl (Std.lt_of_le_of_ne hlt (Ne.symm heq)))

/-- What the loop keeps: the points ascend, none is past a file that is still to come, and there are
fewer of them than shares were asked for. -/
structure Cut (ways : ℕ) (files rest : List StoreFile) (s : Cutting) : Prop where
  ascend : s.points.Pairwise (· < ·)
  behind : ∀ point ∈ s.points, ∀ file ∈ rest, point ≤ file.1
  keys : ∀ point ∈ s.points, ∃ file ∈ files, file.1 = point
  count : s.points.length < s.next
  few : s.next ≤ ways

theorem Cut.turn {ways held : ℕ} {files rest : List StoreFile} {file : StoreFile} {s : Cutting}
    (h : Cut ways files (file :: rest) s) (hmem : file ∈ files)
    (hsorted : ∀ later ∈ rest, file.1 ≤ later.1) : Cut ways files rest (cut ways held s file) := by
  have hbehind : ∀ point ∈ s.points, ∀ later ∈ rest, point ≤ later.1 :=
    fun point hpoint later hlater => h.behind point hpoint later (List.mem_cons_of_mem _ hlater)
  unfold cut
  dsimp only
  split_ifs with hstop hpast hnew
  · exact ⟨h.ascend, hbehind, h.keys, h.count, h.few⟩
  · refine ⟨List.pairwise_append.mpr ⟨h.ascend, List.pairwise_singleton _ _, ?_⟩, ?_, ?_, ?_, ?_⟩
    · -- the key is past the last point, and that is past the others
      intro point hpoint key hkey
      rw [List.mem_singleton.mp hkey]
      have hne : s.points ≠ [] := List.ne_nil_of_mem hpoint
      have hlast : s.points.getLast? ≠ some file.1 := hnew.resolve_left hne
      refine Std.lt_of_le_of_ne (h.behind point hpoint file List.mem_cons_self) fun heq => hlast ?_
      obtain ⟨before, last, hsplit⟩ := (List.eq_nil_or_concat s.points).resolve_left hne
      rw [List.concat_eq_append] at hsplit
      rw [hsplit, List.getLast?_concat]
      have hascend := h.ascend
      rw [hsplit] at hpoint hascend
      rcases List.mem_append.mp hpoint with hbefore | hsame
      · have hlt := (List.pairwise_append.mp hascend).2.2 point hbefore last
          (List.mem_singleton_self last)
        have hle := h.behind last (hsplit ▸ List.mem_concat_self) file List.mem_cons_self
        exact absurd hlt (heq ▸ hle)
      · rw [← heq, List.mem_singleton.mp hsame]
    · intro point hpoint later hlater
      rcases List.mem_append.mp hpoint with hpoint | hpoint
      · exact hbehind point hpoint later hlater
      · rw [List.mem_singleton.mp hpoint]
        exact hsorted later hlater
    · intro point hpoint
      rcases List.mem_append.mp hpoint with hpoint | hpoint
      · exact h.keys point hpoint
      · exact ⟨file, hmem, (List.mem_singleton.mp hpoint).symm⟩
    · rw [List.length_append, List.length_singleton]
      exact Nat.succ_lt_succ h.count
    · exact not_le.mp hstop
  · exact ⟨h.ascend, hbehind, h.keys, h.count.trans (Nat.lt_succ_self _), not_le.mp hstop⟩
  · exact ⟨h.ascend, hbehind, h.keys, h.count, h.few⟩

theorem cut_foldl {ways : ℕ} (held : ℕ) {files : List StoreFile} :
    ∀ (rest : List StoreFile) (s : Cutting),
    (∀ file ∈ rest, file ∈ files) → rest.Pairwise (fun a b => a.1 ≤ b.1) → Cut ways files rest s →
      Cut ways files [] (rest.foldl (cut ways held) s)
  | [], _, _, _, h => h
  | file :: rest, s, hmem, hsorted, h => by
    obtain ⟨hfirst, hsorted⟩ := List.pairwise_cons.mp hsorted
    exact cut_foldl held rest _ (fun later hlater =>
      hmem later (List.mem_cons_of_mem _ hlater)) hsorted
      (h.turn (hmem file List.mem_cons_self) hfirst)

/-- The points ascend, each is the smallest key of a file, and there are fewer than ways. -/
theorem cut_splitPoints (files : List StoreFile) {ways : ℕ} (hways : 2 ≤ ways) :
    (splitPoints files ways).Pairwise (· < ·) ∧
      (∀ point ∈ splitPoints files ways, ∃ file ∈ files, file.1 = point) ∧
      (splitPoints files ways).length < ways := by
  have hstart : Cut ways files (files.mergeSort fileLe) {} := by
    refine ⟨List.Pairwise.nil, ?_, ?_, Nat.zero_lt_one, (Nat.le_of_lt hways)⟩
    · exact fun point hpoint => absurd hpoint List.not_mem_nil
    · exact fun point hpoint => absurd hpoint List.not_mem_nil
  have hend := cut_foldl (files.foldl (fun held file => (held + file.2) % 2 ^ 64) 0) _ {}
    (fun file hfile => List.mem_mergeSort.mp hfile) (sorted_files files) hstart
  have hless := hend.count.trans_le hend.few
  have hpoints : splitPoints files ways = ((files.mergeSort fileLe).foldl
      (cut ways (files.foldl (fun held file => (held + file.2) % 2 ^ 64) 0)) {}).points := by
    unfold splitPoints
    rw [if_neg (not_lt.mpr hways)]
    exact if_neg fun hfull => hless.ne hfull.2
  rw [hpoints]
  exact ⟨hend.ascend, hend.keys, hless⟩

theorem ascend_splitPoints (files : List StoreFile) (ways : ℕ) :
    (splitPoints files ways).Pairwise (· < ·) := by
  by_cases hways : ways < 2
  · have hnone : splitPoints files ways = [] := if_pos hways
    rw [hnone]
    exact List.Pairwise.nil
  · exact (cut_splitPoints files (not_lt.mp hways)).1

/-- No point is the empty key. -/
theorem nil_notMem_splitPoints (files : List StoreFile) (ways : ℕ) :
    [] ∉ splitPoints files ways := by
  have hcut : ∀ (held : ℕ) (rest : List StoreFile) (s : Cutting), [] ∉ s.points →
      [] ∉ (rest.foldl (cut ways held) s).points := by
    intro held rest
    induction rest with
    | nil => exact fun s h => h
    | cons file rest ih =>
      refine fun s h => ih _ ?_
      unfold cut
      dsimp only
      split_ifs with hstop hpast hnew
      · exact h
      · exact fun hmem => (List.mem_append.mp hmem).elim h fun hnil =>
          hpast.2 (List.mem_singleton.mp hnil).symm
      · exact h
      · exact h
  unfold splitPoints
  dsimp only
  split_ifs
  · exact List.not_mem_nil
  · exact fun hmem => hcut _ _ {} List.not_mem_nil (List.mem_of_mem_dropLast hmem)
  · exact hcut _ _ {} List.not_mem_nil

/-! ### The pieces -/

theorem getElem?_piecesOf (points : List Bytes) {i : ℕ} (hi : i ≤ points.length) :
    (piecesOf points)[i]? =
      some { after := if 0 < i then points[i - 1]? else none, upTo := points[i]? } := by
  rw [piecesOf, List.getElem?_map, List.getElem?_range (Nat.lt_succ_of_le hi)]
  rfl

theorem length_piecesOf (points : List Bytes) : (piecesOf points).length = points.length + 1 := by
  rw [piecesOf, List.length_map, List.length_range]

/-- How many of ascending points a key is past. -/
theorem lt_iff_index {points : List Bytes} (hascend : points.Pairwise (· < ·)) (key : Bytes) :
    ∃ n ≤ points.length, ∀ i point, points[i]? = some point → (point < key ↔ i < n) := by
  induction points with
  | nil => exact ⟨0, Nat.le_refl 0, fun i point h => absurd h (by simp)⟩
  | cons first rest ih =>
    obtain ⟨hfirst, hrest⟩ := List.pairwise_cons.mp hascend
    by_cases hpast : first < key
    · obtain ⟨n, hn, hindex⟩ := ih hrest
      refine ⟨n + 1, Nat.succ_le_succ hn, fun i point hpoint => ?_⟩
      cases i with
      | zero =>
        rw [List.getElem?_cons_zero, Option.some.injEq] at hpoint
        subst hpoint
        exact iff_of_true hpast (Nat.succ_pos n)
      | succ i =>
        rw [List.getElem?_cons_succ] at hpoint
        exact (hindex i point hpoint).trans (Nat.succ_lt_succ_iff).symm
    · -- a key that is not past the first point is past none
      refine ⟨0, Nat.zero_le _, fun i point hpoint =>
        iff_of_false (fun hlt => hpast ?_) (Nat.not_lt_zero i)⟩
      rcases List.mem_cons.mp (List.mem_of_getElem? hpoint) with rfl | hlater
      · exact hlt
      · exact List.lt_trans (hfirst point hlater) hlt

/-- The keys of the piece at a place are those that are past every point before it and no point
after. -/
theorem has_getElem?_piecesOf {points : List Bytes} {key : Bytes} {n : ℕ} (hn : n ≤ points.length)
    (hindex : ∀ i point, points[i]? = some point → (point < key ↔ i < n)) (i : ℕ) :
    (∃ piece : Piece, (piecesOf points)[i]? = some piece ∧ piece.Has key) ↔ i = n := by
  constructor
  · rintro ⟨piece, hpiece, hafter, hupTo⟩
    have hi : i ≤ points.length := by
      have hlt := (List.getElem?_eq_some_iff.mp hpiece).1
      rw [length_piecesOf] at hlt
      exact Nat.le_of_lt_succ hlt
    rw [getElem?_piecesOf points hi, Option.some.injEq] at hpiece
    subst hpiece
    apply Nat.le_antisymm
    · by_contra hlt
      have hpos : 0 < i := by omega
      have hbefore : i - 1 < points.length := by omega
      have hget := List.getElem?_eq_getElem hbefore
      have hpast := (hindex _ _ hget).mp (hafter _ ((if_pos hpos).trans hget))
      omega
    · by_contra hlt
      have hget := List.getElem?_eq_getElem (show i < points.length by omega)
      exact hupTo _ hget ((hindex _ _ hget).mpr (not_le.mp hlt))
  · rintro rfl
    refine ⟨_, getElem?_piecesOf points hn, fun bound hbound => ?_, fun bound hbound => ?_⟩
    · dsimp only at hbound
      split_ifs at hbound with hpos
      exact (hindex _ _ hbound).mpr (Nat.sub_lt hpos Nat.one_pos)
    · intro hlt
      exact absurd ((hindex _ _ hbound).mp hlt) (lt_irrefl i)

/-- A key is in one piece of those that ascending points make. -/
theorem piecesOf_cover {points : List Bytes} (hascend : points.Pairwise (· < ·)) (key : Bytes) :
    ∃! i : ℕ, ∃ piece : Piece, (piecesOf points)[i]? = some piece ∧ piece.Has key := by
  obtain ⟨n, hn, hindex⟩ := lt_iff_index hascend key
  exact ⟨n, (has_getElem?_piecesOf hn hindex n).mpr rfl,
    fun i hi => (has_getElem?_piecesOf hn hindex i).mp hi⟩

/-! ### The share, cut up -/

/-- **The points cut a table into pieces**: they ascend, each is where a file of the store starts,
and there are fewer than were asked for, or none where none were. So there are no more pieces than
were asked for, and at least one, and every key is in just one of them. -/
theorem split_points_ascend (files : List StoreFile) (ways : ℕ) :
    (splitPoints files ways).Pairwise (· < ·) ∧
      (∀ point ∈ splitPoints files ways, ∃ file ∈ files, file.1 = point) ∧
      ((splitPoints files ways).length < ways ∨ ways = 0 ∧ splitPoints files ways = []) ∧
      (piecesOf (splitPoints files ways)).length ≤ max ways 1 ∧
      ∀ key, ∃! i : ℕ, ∃ piece : Piece,
        (piecesOf (splitPoints files ways))[i]? = some piece ∧ piece.Has key := by
  rw [length_piecesOf]
  by_cases hways : ways < 2
  · have hnone : splitPoints files ways = [] := if_pos hways
    rw [hnone]
    refine ⟨List.Pairwise.nil, fun point hpoint => absurd hpoint List.not_mem_nil, ?_, ?_,
      piecesOf_cover List.Pairwise.nil⟩
    · exact (Nat.eq_zero_or_pos ways).symm.imp id fun hzero => ⟨hzero, rfl⟩
    · exact le_max_right ways 1
  · obtain ⟨hascend, hkeys, hless⟩ := cut_splitPoints files (not_lt.mp hways)
    exact ⟨hascend, hkeys, .inl hless, le_max_of_le_left hless, piecesOf_cover hascend⟩

/-- Where no ways are asked for there is no point, which is no fewer than none, and one piece. -/
theorem split_points_none :
    ¬ (splitPoints [([1], 1)] 0).length < 0 ∧ ¬ (piecesOf (splitPoints [([1], 1)] 0)).length ≤ 0 :=
  ⟨Nat.not_lt_zero _, by decide⟩

end AsyncDatabase
