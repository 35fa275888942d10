import AsyncDatabase.Repository.Counting
import AsyncDatabase.Restart

/-!
# What a copy keeps

What nothing that happens to a node takes away from it, a restart included: the terms it refuses
(`Node.Refuses`), the records it holds (`Node.Holds`) and the counts it has handed out.
`Node.Grows` says that of two states of a node, with the records that were written between them, and
there is one lemma for each thing a node does.
-/

namespace AsyncDatabase

open Bytes (ascii)
open Throwing

variable {J : JsonCodec}

/-! ### Writes of one record -/

/-- A record that is stamped has a version of the machine's with no negative term. -/
structure Record.Stamped (record : Record) : Prop where
  fits : record.stamp.Fits
  term_nonneg : 0 ≤ record.stamp.term

namespace Record

/-- What is held for a record's key is the record or a newer one. -/
def HeldAs (record : Record) (stored : Bytes) : Prop :=
  stored = composeValue record.stamp record.value ∨
    (versionOf stored).isNewer record.stamp = true

instance (record : Record) (stored : Bytes) : Decidable (record.HeldAs stored) :=
  inferInstanceAs (Decidable (_ ∨ _))

theorem HeldAs.long {record : Record} {stored : Bytes} (h : record.HeldAs stored)
    (hrecord : record.Stamped) : versionSize ≤ stored.length := by
  rcases h with rfl | hnewer
  · rw [length_composeValue]
    omega
  · -- what is too short to have a version has one that is newer than none
    by_contra hshort
    rw [versionOf, if_pos (by omega), Version.isNewer_iff] at hnewer
    have hterm := hrecord.term_nonneg
    dsimp only at hnewer
    omega

theorem HeldAs.version {record : Record} {stored : Bytes} (h : record.HeldAs stored)
    (hrecord : record.Stamped) :
    versionOf stored = record.stamp ∨ (versionOf stored).isNewer record.stamp = true := by
  rcases h with rfl | hnewer
  · exact Or.inl (versionOf_composeValue hrecord.fits record.value)
  · exact Or.inr hnewer

theorem HeldAs.term_nonneg {record : Record} {stored : Bytes} (h : record.HeldAs stored)
    (hrecord : record.Stamped) : 0 ≤ (versionOf stored).term := by
  have hterm := hrecord.term_nonneg
  rcases h.version hrecord with heq | hnewer
  · rwa [heq]
  · rw [Version.isNewer_iff] at hnewer
    omega

/-- What is newer than what is held for a record is held for it too. -/
theorem HeldAs.of_isNewer {record : Record} {stored newer : Bytes} (h : record.HeldAs stored)
    (hrecord : record.Stamped) (hterm : 0 ≤ (versionOf newer).term)
    (hnewer : isNewer newer stored = true) : record.HeldAs newer := by
  have hlong : versionSize ≤ newer.length := by
    by_contra hshort
    rw [isNewer, if_pos (by omega)] at hnewer
    cases hnewer
  rw [isNewer_eq hlong (h.long hrecord) hterm (h.term_nonneg hrecord),
    Version.isNewer_iff] at hnewer
  refine Or.inr (Version.isNewer_iff.mpr ?_)
  rcases h.version hrecord with heq | hheld
  · rwa [heq] at hnewer
  · rw [Version.isNewer_iff] at hheld
    omega

/-- Another write of the key takes the place of what is held only where it is newer than the record,
unless it is the record itself. -/
theorem HeldAs.of_not_isNewer {record other : Record} {stored : Bytes} (h : record.HeldAs stored)
    (hrecord : record.Stamped) (hother : other.Stamped)
    (hsame : other.stamp = record.stamp → other.value = record.value)
    (hnot : isNewer stored (composeValue other.stamp other.value) = false) :
    record.HeldAs (composeValue other.stamp other.value) := by
  have hversion := versionOf_composeValue hother.fits other.value
  have hlength := length_composeValue other.stamp other.value
  have hnever : ¬(versionOf stored).isNewer other.stamp = true := by
    rw [isNewer_eq (h.long hrecord) (by omega) (h.term_nonneg hrecord)
      (by rw [hversion]; exact hother.term_nonneg), hversion] at hnot
    rw [hnot]
    exact Bool.false_ne_true
  by_cases hstamp : other.stamp = record.stamp
  · exact Or.inl (by rw [hstamp, hsame hstamp])
  · refine Or.inr ?_
    rw [hversion, Version.isNewer_iff]
    rw [Version.isNewer_iff] at hnever
    have hne : ¬(other.stamp.term = record.stamp.term ∧ other.stamp.count =
      record.stamp.count) := by
      rintro ⟨hterm, hcount⟩
      apply hstamp
      cases hleft : other.stamp
      cases hright : record.stamp
      simp_all
    rcases h.version hrecord with heq | hheld
    · rw [heq] at hnever
      omega
    · rw [Version.isNewer_iff] at hheld
      omega

end Record

namespace Node

/-- Nothing that was ordered in an older term is applied here, whether or not the node starts
again. -/
structure Refuses (n : Node) (partition : Partition) (term : ℤ) : Prop where
  accepted : term ≤ n.accepted partition
  stored : term ≤ n.store.terms partition

/-- The node holds a record, or a newer one of its key. -/
def Holds (n : Node) (table : Bytes) (record : Record) : Prop :=
  ∃ family stored, n.store.disk.families[table]? = some family ∧
    family[Store.storeKey record.key]? = some stored ∧ record.HeldAs stored

/-- The store is one a history that has deleted no table left behind, at a count of a block of its
own. -/
structure Sturdy (J : JsonCodec) (n : Node) : Prop where
  tracked : ∃ l, Tracks J n.store l ∧ l.garbled = false
  counted : n.store.CountsKept

/-- A later state of a node, the records that were written in between with the tables they are
of. -/
structure Grows (n : Node) (writes : List (Bytes × Record)) (n' : Node) : Prop where
  refuses : ∀ {partition : Partition} {term : ℤ}, n.Refuses partition term →
    n'.Refuses partition term
  terms : n.store.terms ≤ n'.store.terms
  handedOut : ∀ {count : ℕ}, n.store.HandedOut count → n'.store.HandedOut count
  holds : ∀ {table : Bytes} {record : Record}, record.Stamped →
    (∀ written ∈ writes, written.1 = table → written.2.key = record.key →
      written.2.stamp = record.stamp → written.2.value = record.value) →
    n.Holds table record → n'.Holds table record

theorem Grows.refl (n : Node) : n.Grows [] n := ⟨id, le_refl _, id, fun _ _ => id⟩

theorem Grows.trans {n n' n'' : Node} {writes writes' : List (Bytes × Record)}
    (h : n.Grows writes n') (h' : n'.Grows writes' n'') : n.Grows (writes ++ writes') n'' where
  refuses hrefuses := h'.refuses (h.refuses hrefuses)
  terms := h.terms.trans h'.terms
  handedOut hcount := h'.handedOut (h.handedOut hcount)
  holds hrecord hwrites hholds := by
    refine h'.holds hrecord (fun written hmem => hwrites written (List.mem_append_right _ hmem)) ?_
    exact h.holds hrecord (fun written hmem => hwrites written (List.mem_append_left _ hmem)) hholds

theorem Grows.weaken {n n' : Node} {writes writes' : List (Bytes × Record)} (h : n.Grows writes n')
    (hsub : writes ⊆ writes') : n.Grows writes' n' where
  refuses := h.refuses
  terms := h.terms
  handedOut := h.handedOut
  holds hrecord hwrites := h.holds hrecord fun written hmem => hwrites written (hsub hmem)

/-- A node that takes a later term of a partition. -/
theorem grows_raise (n : Node) (partition : Partition) (term : ℤ) :
    n.Grows [] (n.raise partition term) where
  refuses h := ⟨h.accepted.trans ((quiet_raise n partition term).accepted _), h.stored⟩
  terms := le_refl _
  handedOut := id
  holds _ _ := id

theorem Sturdy.of_store {n n' : Node} (h : n.Sturdy J) (hstore : n'.store = n.store) :
    n'.Sturdy J where
  tracked := by rw [hstore]; exact h.tracked
  counted := by rw [hstore]; exact h.counted

/-- A node whose store is at a later state, with what it carried out written down or not. -/
theorem grows_of_store {n n' : Node} {writes : List (Bytes × Record)}
    (haccepted : n'.accepted = n.accepted) (hterms : n.store.terms ≤ n'.store.terms)
    (hcounts : n'.store.SameCounts n.store)
    (hholds : ∀ {table : Bytes} {record : Record}, record.Stamped →
      (∀ written ∈ writes, written.1 = table → written.2.key = record.key →
        written.2.stamp = record.stamp → written.2.value = record.value) →
      n.Holds table record → n'.Holds table record) : n.Grows writes n' where
  refuses h := ⟨by rw [haccepted]; exact h.accepted, h.stored.trans (hterms _)⟩
  terms := hterms
  handedOut := hcounts.handedOut
  holds := hholds

theorem grows_of_same {n n' : Node} (haccepted : n'.accepted = n.accepted)
    (hstore : n'.store = n.store) : n.Grows [] n' := by
  refine grows_of_store haccepted (by rw [hstore]) ⟨?_, ?_, ?_⟩ fun _ _ hholds => ?_
  · rw [hstore]
  · rw [hstore]
  · rw [hstore]
  · unfold Holds
    rw [hstore]
    exact hholds

end Node

/-! ### Writing a record -/

namespace Store

theorem terms_le_written (s : Store) (name : Bytes) (family : Family) (record : Record) :
    s.terms ≤ (s.written name family record).terms := by
  intro partition
  unfold written
  split_ifs with hle
  · exact le_refl _
  · by_cases heq : partition = partitionOf record.key
    · subst heq
      simpa [raiseTerm] using (not_le.mp hle).le
    · simp [raiseTerm, heq, setFamily]

theorem sameCounts_written (s : Store) (name : Bytes) (family : Family) (record : Record) :
    (s.written name family record).SameCounts s := by
  unfold written
  split_ifs <;> exact ⟨rfl, rfl, rfl⟩

/-- Where a write answers, the database carried out what it was asked. -/
theorem after_writeRecord_of_ok {db : Database} {name : Bytes} {record : Record} {s t : Store}
    (h : writeRecord db name record s = .ok () t) : after (writeRecord {} name record s) = t := by
  rcases writeRecord_cases db name record s with ⟨e, hrun⟩ |
    ⟨family, hfamily, ⟨hnewer, hrun⟩ | ⟨hnewer, hrun⟩⟩
  · rw [hrun] at h
    cases h
  · rw [hrun] at h
    cases h
    rw [writeRecord_eq hfamily, if_pos hnewer, after_ok]
  · rw [hrun] at h
    cases h
    rw [writeRecord_eq hfamily, if_neg (by rw [hnewer]; exact Bool.false_ne_true), after_ok]

/-- What a write that answers does: it takes no count and no term back, and the record takes the
place of what is held unless that is newer. -/
theorem ok_writeRecord {db : Database} {name : Bytes} {record : Record} {s t : Store}
    (h : writeRecord db name record s = .ok () t) :
    t.SameCounts s ∧ s.terms ≤ t.terms ∧ ∃ family, s.disk.families[name]? = some family ∧
      (t.disk.families = s.disk.families ∨
        Record.isNewer (family[storeKey record.key]?.getD [])
            (Record.composeValue record.stamp record.value) = false ∧
          t.disk.families = s.disk.families.insert name (family.insert (storeKey record.key)
            (Record.composeValue record.stamp record.value))) := by
  rcases writeRecord_cases db name record s with ⟨e, hrun⟩ |
    ⟨family, hfamily, ⟨-, hrun⟩ | ⟨hnewer, hrun⟩⟩
  · rw [hrun] at h
    cases h
  · rw [hrun] at h
    cases h
    exact ⟨⟨rfl, rfl, rfl⟩, le_refl _, family, hfamily, Or.inl rfl⟩
  · rw [hrun] at h
    cases h
    refine ⟨sameCounts_written .., terms_le_written s name family record, family, hfamily,
      Or.inr ⟨?_, families_written ..⟩⟩
    cases hheld : family[storeKey record.key]? with
    | none => exact if_pos (by simp [Record.versionSize])
    | some held =>
      rw [hheld] at hnewer
      exact hnewer

end Store

namespace Node

/-- The record a write left behind, or the newer one that it found. -/
theorem holds_of_writeRecord {n n' : Node} {db : Database} {name : Bytes} {record : Record}
    (hn : n.Sturdy J) (hrecord : record.Stamped)
    (h : Store.writeRecord db name record n.store = .ok () n'.store) : n'.Holds name record := by
  have hversion := Record.versionOf_composeValue hrecord.fits record.value
  have hlength := Record.length_composeValue record.stamp record.value
  obtain ⟨l, htracks, -⟩ := hn.tracked
  rcases Store.writeRecord_cases db name record n.store with ⟨e, hrun⟩ |
    ⟨family, hfamily, ⟨hnewer, hrun⟩ | ⟨-, hrun⟩⟩
  · rw [hrun] at h
    cases h
  · have hstore : n.store = n'.store := by
      rw [hrun] at h
      injection h
    obtain ⟨held, hheld, hisNewer⟩ := (Option.any_eq_true _ _).mp hnewer
    have hlong : Record.versionSize ≤ held.length := by
      by_contra hshort
      rw [Record.isNewer, if_pos (by omega)] at hisNewer
      cases hisNewer
    have hstored := htracks.terms.stored hfamily hheld (Store.partitionHeld_storeKey record.key)
    rw [Record.isNewer_eq hlong (by omega) hstored.1 (by rw [hversion]; exact hrecord.term_nonneg),
      hversion] at hisNewer
    exact ⟨family, held, by rw [← hstore]; exact hfamily, hheld, Or.inr hisNewer⟩
  · have hstore : n.store.written name family record = n'.store := by
      rw [hrun] at h
      injection h
    refine ⟨family.insert (Store.storeKey record.key)
        (Record.composeValue record.stamp record.value),
      Record.composeValue record.stamp record.value, ?_, Std.ExtTreeMap.getElem?_insert_self,
      Or.inl rfl⟩
    rw [← hstore, Store.families_written]
    exact Std.ExtTreeMap.getElem?_insert_self

/-- **A write that answers**: the node refuses what is older than its term once it has accepted it,
and holds the record. -/
theorem grows_of_writeRecord {n : Node} (n' : Node) {db : Database} {name : Bytes} {record : Record}
    (hn : n.Sturdy J) (hrecord : record.Stamped) (haccepted : n'.accepted = n.accepted)
    (h : Store.writeRecord db name record n.store = .ok () n'.store) :
    n'.Sturdy J ∧ n.Grows [(name, record)] n' ∧
      record.stamp.term ≤ n'.store.terms (partitionOf record.key) := by
  obtain ⟨l, htracks, hgarbled⟩ := hn.tracked
  obtain ⟨hcounts, hterms, family, hfamily, hfamilies⟩ := Store.ok_writeRecord h
  -- the ledger has one record more
  have hstep : Tracks J n'.store (l.step (.write name record)) := by
    have hdone := Tracks.step htracks (e := .write name record) ⟨hrecord.fits, hrecord.term_nonneg⟩
    rw [Store.historyStep, Store.after_writeRecord_of_ok h] at hdone
    exact hdone
  have hhas : l.hasFamily name = true := by
    rw [← htracks.tables.families, ← Std.ExtTreeMap.isSome_getElem?_iff_mem, hfamily]
    rfl
  rw [Ledger.step, if_pos hhas] at hstep
  refine ⟨⟨⟨_, hstep, hgarbled⟩, hcounts.kept hn.counted⟩, ?_, ?_⟩
  · refine grows_of_store haccepted hterms hcounts fun {table other} hother hwrites hholds => ?_
    -- what the node had it still has, or has the write in its place where that is no older
    rcases hfamilies with hsame | ⟨hnot, hwritten⟩
    · unfold Holds
      rw [hsame]
      exact hholds
    · obtain ⟨held, stored, hheld, hstored, hheldAs⟩ := hholds
      unfold Holds
      simp only [hwritten, Std.ExtTreeMap.getElem?_insert]
      by_cases htable : name = table
      · subst htable
        obtain rfl := Option.some.inj (hheld.symm.trans hfamily)
        rw [if_pos Std.ReflCmp.compare_self]
        by_cases hkey : Store.storeKey record.key = Store.storeKey other.key
        · -- the length of the prefix is fixed, so keys that are held alike are alike
          have hkeys : record.key = other.key := by
            have := congrArg (List.drop 2) hkey
            simpa [Store.storeKey, Store.partitionPrefix] using this
          refine ⟨_, Record.composeValue record.stamp record.value, rfl, ?_, ?_⟩
          · rw [← hkey]
            exact Std.ExtTreeMap.getElem?_insert_self
          · rw [hkey, hstored] at hnot
            exact hheldAs.of_not_isNewer hother hrecord
              (hwrites (name, record) List.mem_cons_self rfl hkeys) hnot
        · refine ⟨_, stored, rfl, ?_, hheldAs⟩
          rw [Std.ExtTreeMap.getElem?_insert, if_neg (by simpa using hkey)]
          exact hstored
      · -- another table is left alone
        rw [if_neg (by simpa using htable)]
        exact ⟨held, stored, hheld, hstored, hheldAs⟩
  · refine (hstep.terms.newest _ _).mpr (Or.inr ⟨_, List.mem_cons_self, rfl, le_refl _⟩)

/-- A write of this node's own copy: it is done or it throws, and then nothing has changed. -/
theorem carryOut_writeRecord_cases {n : Node} (hn : n.Sturdy J) (db : Database) (name : Bytes)
    {record : Record} (hrecord : record.Stamped) (partition : Partition) (term : ℤ) :
    (∃ n', carryOut partition term (Store.writeRecord db name record) n = .ok () n' ∧
        n'.accepted = n.accepted ∧ n'.Sturdy J ∧ n.Grows [(name, record)] n' ∧
        record.stamp.term ≤ n'.store.terms (partitionOf record.key) ∧ n'.Holds name record) ∨
      ∃ e, carryOut partition term (Store.writeRecord db name record) n = .error e n := by
  rcases carryOut_cases partition term (Store.writeRecord db name record) n with
    ⟨s, hs, hrun⟩ | ⟨e, s, hs, hrun⟩
  · let n' : Node := { n with store := s, done := (partition, term) :: n.done }
    have hwrote : Store.writeRecord db name record n.store = .ok () n'.store := hs
    obtain ⟨hsturdy, hgrows, hstored⟩ :=
      grows_of_writeRecord n' hn hrecord rfl hwrote
    exact Or.inl ⟨n', hrun, rfl, hsturdy, hgrows, hstored, holds_of_writeRecord hn hrecord hwrote⟩
  · have hunchanged : s = n.store := by
      rcases Store.writeRecord_cases db name record n.store with ⟨e', hrun'⟩ |
        ⟨family, -, ⟨-, hrun'⟩ | ⟨-, hrun'⟩⟩ <;> rw [hrun'] at hs <;> cases hs
      rfl
    subst hunchanged
    exact Or.inr ⟨e, hrun⟩

/-! ### Writes that are ordered here and writes that were carried here -/

theorem accepted_raise (n : Node) (partition : Partition) (term : ℤ) :
    (n.raise partition term).accepted partition = max (n.accepted partition) term :=
  Function.update_self ..

/-- **A write that was carried here**: where it is taken, its term was no older than any the node
had accepted, and from then on the node refuses what is older and holds the record. -/
theorem grows_applyWrite {n : Node} (hn : n.Sturdy J) (w : Seams) (request : Request) (name : Bytes)
    (record : Record) (hterm : request.term ≠ 0)
    (hrecord : ({ record with stamp := ⟨request.term, request.count⟩ } : Record).Stamped) :
    let stamped : Record := { record with stamp := ⟨request.term, request.count⟩ }
    let n' := after (applyWrite w request name record n)
    n'.Sturdy J ∧ n.Grows [(name, stamped)] n' ∧
      ∀ answer, applyWrite w request name record n = .ok answer n' → answer.status < 400 →
        n.accepted (partitionOf record.key) ≤ request.term ∧
          n'.Refuses (partitionOf record.key) request.term ∧ n'.Holds name stamped := by
  intro stamped
  let raised := n.raise (partitionOf record.key) request.term
  have hraised : raised.Sturdy J := hn.of_store rfl
  have hgrows : n.Grows [(name, stamped)] raised :=
    (grows_raise n _ _).weaken (List.nil_subset _)
  rw [applyWrite, if_neg hterm, run_bind, accept_eq hterm]
  dsimp only
  by_cases hle : n.accepted (partitionOf record.key) ≤ request.term
  · rw [decide_eq_true hle, if_pos rfl, run_bind]
    rcases carryOut_writeRecord_cases hraised w.db name hrecord (partitionOf record.key)
      request.term with ⟨n', hrun, haccepted, hsturdy, hlater, hstored, hholds⟩ | ⟨e, hrun⟩
    · rw [hrun]
      refine ⟨hsturdy, (grows_raise n _ _).trans hlater, fun _ _ _ => ⟨hle, ⟨?_, hstored⟩, hholds⟩⟩
      change _ ≤ n'.accepted _
      rw [haccepted, accepted_raise]
      exact le_max_right _ _
    · rw [hrun]
      refine ⟨hraised, hgrows, fun answer hanswer => ?_⟩
      cases hanswer
  · rw [decide_eq_false hle, if_neg Bool.false_ne_true]
    refine ⟨hraised, hgrows, fun answer hanswer hstatus => ?_⟩
    -- what is refused for its term is answered with a conflict
    injection hanswer with hanswer _
    rw [← hanswer] at hstatus
    change (409 : ℕ) < 400 at hstatus
    omega

/-- **A write that is ordered here**: it is stamped with a count that was never handed out, and
where the node has a copy of its own the record is written into it. -/
theorem grows_orderWrite {n : Node} (hn : n.Sturdy J) (hroom : n.store.HasCounts) (w : Seams)
    (name : Bytes) (record : Record) (lead : Leadership) (hterm : 0 ≤ lead.term)
    (hlt : lead.term < 2 ^ 63) :
    (∃ e n', orderWrite w name record lead n = .error e n' ∧ n'.Sturdy J ∧ n.Grows [] n') ∨
      ∃ stamped n', orderWrite w name record lead n = .ok stamped n' ∧
        stamped = { record with stamp := ⟨lead.term, stamped.stamp.count⟩ } ∧ stamped.Stamped ∧
        n'.Sturdy J ∧ n.Grows [(name, stamped)] n' ∧ n'.store.HandedOut stamped.stamp.count ∧
        (∀ count, n.store.HandedOut count → count < stamped.stamp.count) ∧
        ((w.replicas record.key).isLocal = true →
          lead.term ≤ n'.store.terms (partitionOf record.key) ∧ n'.Holds name stamped) := by
  rw [orderWrite, run_bind, onStore]
  rcases Store.nextCount_cases w.db hn.counted hroom with ⟨e, hrun⟩ |
    ⟨s, hrun, hsame, hterms, hdisk, hkept, hfits, hnew⟩
  · rw [hrun]
    exact Or.inl ⟨e, n, rfl, hn, Grows.refl n⟩
  rw [hrun]
  dsimp only
  -- the node with its count taken, and the record stamped
  let counted : Node := { n with store := s }
  let stamped : Record := { record with stamp := ⟨lead.term, s.counts⟩ }
  have hstamped : stamped.Stamped := ⟨⟨by dsimp only [stamped]; omega, hlt, hfits⟩, hterm⟩
  have hcounted : counted.Sturdy J := by
    obtain ⟨l, htracks, hgarbled⟩ := hn.tracked
    refine ⟨⟨l, ⟨?_, ?_⟩, hgarbled⟩, hkept⟩
    · refine htracks.terms.of_families hterms hdisk (fun {name family} hfamily => Or.inl ?_) rfl
      rw [← hsame.families]
      exact hfamily
    · refine htracks.tables.of_tables hsame.tables hsame.schema (fun name => ?_) rfl rfl
      rw [show counted.store.disk.families = n.store.disk.families from hsame.families]
  have hgrows : n.Grows [] counted := by
    refine ⟨fun h => ⟨h.accepted, ?_⟩, ?_, fun hcount => ?_, fun _ _ hholds => ?_⟩
    · change _ ≤ s.terms _
      rw [hterms]
      exact h.stored
    · change _ ≤ s.terms
      rw [hterms]
    · exact Or.inl (hnew _ hcount).le
    · unfold Holds
      rw [show counted.store.disk.families = n.store.disk.families from hsame.families]
      exact hholds
  by_cases hlocal : (w.replicas record.key).isLocal = true
  · rw [if_pos hlocal, run_bind]
    rcases carryOut_writeRecord_cases hcounted w.db name hstamped (partitionOf record.key) lead.term
      with ⟨n', hwrite, -, hsturdy, hlater, hstored, hholds⟩ | ⟨e, hwrite⟩
    · refine Or.inr ⟨stamped, n', by rw [hwrite]; rfl, rfl, hstamped, hsturdy, hgrows.trans hlater,
        hlater.handedOut (Or.inl (le_refl _)), hnew, fun _ => ⟨hstored, hholds⟩⟩
    · exact Or.inl ⟨e, counted, by rw [hwrite], hcounted, hgrows⟩
  · rw [if_neg hlocal]
    exact Or.inr ⟨stamped, counted, rfl, rfl, hstamped, hcounted,
      hgrows.weaken (List.nil_subset _), Or.inl (le_refl _), hnew, fun h => absurd h hlocal⟩

/-! ### Files, tables and restarts -/

/-- A history that deletes no table leaves the names as readable as they were. -/
theorem garbled_step {l : Ledger} {e : HistoryEvent} (h : ∀ name stamp, e ≠ .delete name stamp) :
    (l.step e).garbled = l.garbled := by
  cases e with
  | write name record => rw [Ledger.step]; split_ifs <;> rfl
  | imported name file => rw [Ledger.step]; split_ifs <;> rfl
  | create table stamp =>
    rw [Ledger.step]
    cases l.live table.name with
    | none => rfl
    | some held => dsimp only; split_ifs <;> rfl
  | delete name stamp => exact absurd rfl (h name stamp)

theorem grows_imported {n : Node} (n' : Node) (hn : n.Sturdy J) {name : Bytes}
    {file : List Store.Carried} (hfile : ∀ carried ∈ file, 0 ≤ (Record.versionOf carried.2).term)
    (hstore : n'.store = after (Store.importRecords {} name file n.store))
    (haccepted : n'.accepted = n.accepted) : n'.Sturdy J ∧ n.Grows [] n' := by
  obtain ⟨l, htracks, hgarbled⟩ := hn.tracked
  have hstep : Tracks J n'.store (l.step (.imported name file)) := by
    rw [hstore]
    exact htracks.step (e := .imported name file) hfile
  have hdone : (l.step (.imported name file)).garbled = false := by
    rw [garbled_step (by simp), hgarbled]
  by_cases hempty : file = []
  · have hsame : n'.store = n.store := by
      rw [hstore, hempty]
      rfl
    exact ⟨hn.of_store hsame, grows_of_same haccepted hsame⟩
  cases hfamily : n.store.disk.families[name]? with
  | none =>
    have hsame : n'.store = n.store := by
      rw [hstore, Store.after_importRecords_of_none hfamily]
    exact ⟨hn.of_store hsame, grows_of_same haccepted hsame⟩
  | some family =>
    obtain ⟨families, hrun, hfamilies⟩ := Store.importRecords_eq hempty hfamily
    rw [hrun, after_ok] at hstore
    have hcounts : n'.store.SameCounts n.store := by
      rw [hstore]
      exact ⟨rfl, rfl, rfl⟩
    have hterms : n.store.terms ≤ n'.store.terms := by
      intro partition
      rw [hstore]
      change _ ≤ (n.store.raisedTo _).terms partition
      unfold Store.raisedTo
      dsimp only
      split_ifs with hlt
      · exact hlt.1.le
      · exact le_refl _
    refine ⟨⟨⟨_, hstep, hdone⟩, hcounts.kept hn.counted⟩,
      grows_of_store haccepted hterms hcounts fun {table record} hrecord _ hholds => ?_⟩
    obtain ⟨held, stored, hheld, hstored, hheldAs⟩ := hholds
    unfold Holds
    have hnow : ∀ other : Bytes, n'.store.disk.families[other]? =
      families[other]? := fun other => by
      rw [hstore]
      rfl
    simp only [hnow, hfamilies]
    by_cases htable : table = name
    · subst htable
      obtain rfl := Option.some.inj (hheld.symm.trans hfamily)
      simp only [if_pos]
      -- the key is still held, by what was there or by a record of the file that is newer
      have hkeep : ∀ kept : List Store.Carried, ∃ value,
          (Store.ingest held kept)[Store.storeKey record.key]? = some value := by
        intro kept
        rw [← Option.isSome_iff_exists, Std.ExtTreeMap.isSome_getElem?_iff_mem]
        refine Store.mem_ingest_of_mem ?_ kept
        rw [← Std.ExtTreeMap.isSome_getElem?_iff_mem, hstored]
        rfl
      obtain ⟨value, hvalue⟩ := hkeep (file.filter (Store.takes held))
      refine ⟨_, value, rfl, hvalue, ?_⟩
      rcases Store.mem_of_getElem?_ingest hvalue with hmem | hbefore
      · obtain ⟨hin, htakes⟩ := List.mem_filter.mp hmem
        rw [Store.takes, hstored, Option.all_some] at htakes
        exact hheldAs.of_isNewer hrecord (hfile _ hin) htakes
      · obtain rfl := Option.some.inj (hbefore.symm.trans hstored)
        exact hheldAs
    · simp only [if_neg htable]
      exact ⟨held, stored, hheld, hstored, hheldAs⟩

theorem grows_carryCreate {n : Node} (n' : Node) (hn : n.Sturdy J) {table : Table} {stamp : Version}
    (htext : table.utf8 = true) (hstamp : stamp.Documented)
    (hstore : n'.store = n.store.carryCreate J table stamp) (haccepted : n'.accepted = n.accepted) :
    n'.Sturdy J ∧ n.Grows [] n' := by
  obtain ⟨l, htracks, hgarbled⟩ := hn.tracked
  have hstep : Tracks J n'.store (l.step (.create table stamp)) := by
    rw [hstore]
    exact htracks.carryCreate htext hstamp
  have hdone : (l.step (.create table stamp)).garbled = false := by
    rw [garbled_step (by simp), hgarbled]
  -- a create takes no count and no term, and gives no family up
  have hkept : n'.store.SameCounts n.store ∧ n'.store.terms = n.store.terms ∧
      ∀ (name : Bytes) (family : Family), n.store.disk.families[name]? = some family →
        n'.store.disk.families[name]? = some family := by
    rw [hstore, Store.carryCreate]
    split_ifs with hhas
    · exact ⟨⟨rfl, rfl, rfl⟩, rfl, fun _ _ => id⟩
    · rcases Store.createTable_cases J {} table stamp n.store with ⟨-, -, hrun⟩ | ⟨-, e, hrun⟩ |
        ⟨-, hno, -⟩
      · rw [hrun, after_ok]
        refine ⟨?_, ?_, fun name family hfamily => ?_⟩
        · unfold Store.withFamily
          split_ifs <;> exact ⟨rfl, rfl, rfl⟩
        · unfold Store.withFamily
          split_ifs <;> rfl
        · rw [Store.families_writeDown, Store.disk_setTables, Store.getElem?_withFamily]
          split_ifs with hname
          · rw [← hname, hfamily]
            rfl
          · exact hfamily
      · rw [hrun]
        exact ⟨⟨rfl, rfl, rfl⟩, rfl, fun _ _ => id⟩
      · exact absurd rfl hno
  obtain ⟨hcounts, hterms, hfamilies⟩ := hkept
  refine ⟨⟨⟨_, hstep, hdone⟩, hcounts.kept hn.counted⟩,
    grows_of_store haccepted (by rw [hterms]) hcounts fun _ _ hholds => ?_⟩
  obtain ⟨held, stored, hheld, hstored, hheldAs⟩ := hholds
  exact ⟨held, stored, hfamilies _ _ hheld, hstored, hheldAs⟩

/-- A store that is opened again has the families it had, the terms it had and none of its
counts. -/
theorem Sturdy.reopened {n : Node} (hn : n.Sturdy J) :
    (n.restarted J).store.terms = n.store.terms ∧ (n.restarted J).store.counts = 0 ∧
      (n.restarted J).store.countsReserved = 0 ∧
      (n.restarted J).store.disk.count = n.store.disk.count ∧
      (∀ name : Bytes, (n.restarted J).store.disk.families[name]? = n.store.disk.families[name]?) ∧
      ∃ l, Tracks J (n.restarted J).store l ∧ l.garbled = false := by
  obtain ⟨l, htracks, hgarbled⟩ := hn.tracked
  obtain ⟨families, hrun, hfamilies⟩ := Store.openStore_eq J n.store.disk
  let s : Store :=
    { disk := { n.store.disk with families }
      tables := Store.readSchemaRecord J n.store.disk
      terms := fun partition => (n.store.disk.terms partition).getD 0 }
  have hs : (n.restarted J).store = s := by
    change after (Store.openStore J {} n.store.disk) = s
    rw [hrun, after_ok]
  -- what is read of the record is the schema, as nothing of it was lost
  have htables : s.tables = n.store.tables := by
    have hrecord := htracks.tables.record
    rw [hgarbled, if_neg Bool.false_ne_true] at hrecord
    exact hrecord
  have hterms : s.terms = n.store.terms := funext htracks.terms.onDisk
  -- each table has its family, and no family is without its table
  have hsame : ∀ name : Bytes, families[name]? = n.store.disk.families[name]? := by
    intro name
    rw [hfamilies, show Store.readSchemaRecord J n.store.disk = n.store.tables from htables]
    have hmem := htracks.tables.families name
    rw [Ledger.hasFamily, ← htracks.tables.live_iff,
      ← Std.ExtTreeMap.isSome_getElem?_iff_mem] at hmem
    split_ifs with hhas hdefault
    · obtain ⟨family, hfamily⟩ := Option.isSome_iff_exists.mp (hmem.mpr (by simp [hhas]))
      rw [hfamily]
      rfl
    · rfl
    · refine (Option.not_isSome_iff_eq_none.mp fun hno => ?_).symm
      simpa [hhas, hdefault] using hmem.mp hno
  rw [hs]
  refine ⟨hterms, rfl, rfl, rfl, hsame, l, ⟨?_, ?_⟩, hgarbled⟩
  · refine htracks.terms.of_families hterms rfl (fun {name family} hfamily => Or.inl ?_) rfl
    rw [← hsame]
    exact hfamily
  · refine htracks.tables.of_tables htables rfl (fun name => ?_) rfl rfl
    rw [← Std.ExtTreeMap.isSome_getElem?_iff_mem, ← Std.ExtTreeMap.isSome_getElem?_iff_mem, ← hsame]

/-- **A restart** takes nothing that a copy keeps away from it. -/
theorem grows_restarted {n : Node} (hn : n.Sturdy J) :
    (n.restarted J).Sturdy J ∧ n.Grows [] (n.restarted J) := by
  obtain ⟨hterms, hcounts, hreserved, hcount, hfamilies, htracks⟩ := hn.reopened
  have haccepted : ∀ partition, n.store.terms partition ≤ (n.restarted J).accepted partition := by
    intro partition
    have hrestored : (n.restarted J).store.terms partition ≤
        Node.restoredTerms (n.restarted J).store partition := by
      by_cases htable : partition = tablePartition
      · rw [htable]
        exact le_restoredTerms_iff.mpr (Or.inl (le_refl _))
      · rw [Node.restoredTerms, Function.update_of_ne htable]
    rw [← hterms]
    exact hrestored.trans (le_max_right _ _)
  refine ⟨⟨htracks, ⟨by rw [hcounts, hreserved], by rw [hreserved]; exact Nat.zero_le _⟩⟩,
    ⟨fun h => ⟨h.stored.trans (haccepted _), by rw [hterms]; exact h.stored⟩, by rw [hterms],
      fun hhanded => Or.inr ⟨by rw [hcounts, hreserved], ?_⟩, fun _ _ hholds => ?_⟩⟩
  · rw [hcount]
    exact hhanded.le_reserved hn.counted
  · obtain ⟨held, stored, hheld, hstored, hheldAs⟩ := hholds
    exact ⟨held, stored, by rw [hfamilies]; exact hheld, hstored, hheldAs⟩

theorem sturdy_fresh (J : JsonCodec) : (Node.fresh J).Sturdy J where
  tracked := ⟨{}, tracks_opened, rfl⟩
  counted := by
    obtain ⟨families, hrun, -⟩ := Store.openStore_eq J Disk.fresh
    have hstore : (Node.fresh J).store = after (Store.openStore J {} Disk.fresh) := rfl
    rw [hstore, hrun]
    exact ⟨le_refl _, Nat.zero_le _⟩

end Node

end AsyncDatabase
