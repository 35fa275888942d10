import AsyncDatabase.Leading

/-!
# Leading in the term of a claim

`leader` is to tell a node that it leads in the term of a claim of its own: the revision etcd made
that claim at. `led_by_claim` says when it does, over every run of every number of nodes: whenever a
node reads its own name back from a leader's key, it has been told the term of that claim since it
started and no newer one. `lost_create_led` is a run where it does not.
-/

namespace AsyncDatabase

open Bytes (ascii)
open Machine

namespace Leading

variable (c : ClaimConfig)

/-- Where a node is to lead, it is to lead in the term of a claim of its own, which it found or
made. -/
def OwnTerm (made : List (Partition × LeaderKey)) (n : Bytes) (partition : Partition)
    (led : Leadership) (source : Option LeaderKey) : Prop :=
  led.isLocal = true → ∃ key, source = some key ∧ (partition, key) ∈ made ∧ key.holder = n ∧
    led.term = key.created

/-- What is to hold of the answers. -/
structure LedByClaim (s : Leading) : Prop where
  own : ∀ a ∈ s.answers, OwnTerm s.store.made a.node a.partition a.led a.source
  /-- Nobody else is ever told to lead the partition in that term. -/
  alone : ∀ a ∈ s.answers, ∀ b ∈ s.answers, a.led.isLocal = true → b.led.isLocal = true →
    a.partition = b.partition → 0 < a.led.term → a.led.term = b.led.term → a.node = b.node
  /-- The answers of one claim are in one term. -/
  steady : ∀ a ∈ s.answers, ∀ b ∈ s.answers, a.led.isLocal = true → b.led.isLocal = true →
    a.partition = b.partition → a.source = b.source → a.led.term = b.led.term

/-- The key a step reads a leadership back from. -/
def readsBack (s : Leading) : LeadingEvent → Option (Bytes × Partition × LeaderKey)
  | .at n .turn => do
    let pass ← (s.nodes n).pass
    let partition ← pass.left.head?
    let key ← pass.keys partition
    if pass.request = none ∧ (c.named n).callOf (s.nodes n).claimant.releasing pass.now
        pass.registered pass.w.claims partition (some key.holder) = none then
      some (n, partition, key)
    else none
  | .at n (.turned answer) => do
    let pass ← (s.nodes n).pass
    let request ← pass.request
    let partition ← pass.left.head?
    let key ← pass.keys partition
    if ClaimAnswer.gone (s.store.heard request answer) then none else some (n, partition, key)
  | .at n (.resolve thread _) =>
    match (s.nodes n).asking thread with
    | .got partition _ (some key) => some (n, partition, key)
    | _ => none
  | _ => none

/-- This term was told, and no newer one. -/
def Newest (told : List ℤ) (term : ℤ) : Prop := term ∈ told ∧ ∀ other ∈ told, other ≤ term

instance (told : List ℤ) (term : ℤ) : Decidable (Newest told term) :=
  inferInstanceAs (Decidable (_ ∧ _))

/-- A node that reads its own name back has been told the term of that claim since it started, by
its create, a write or its store, and no newer one. -/
def ToldOf (s : Leading) (e : LeadingEvent) : Prop :=
  ∀ read ∈ s.readsBack c e, read.2.2.holder = read.1 →
    Newest ((s.nodes read.1).told read.2.1) read.2.2.created

instance (s : Leading) (e : LeadingEvent) : Decidable (s.ToldOf c e) :=
  inferInstanceAs (Decidable (∀ read ∈ s.readsBack c e, _))

end Leading

/-! ### etcd -/

namespace ClaimStore

/-- The claims etcd made and what it answered of them. -/
structure Sound (s : ClaimStore) : Prop where
  nonneg : 0 ≤ s.revision
  numbered : ∀ made ∈ s.made, 0 < made.2.created ∧ made.2.created ≤ s.revision
  unique : ∀ made ∈ s.made, ∀ other ∈ s.made, made.2.created = other.2.created → made = other
  keys : ∀ partition key, s.keys partition = some key → (partition, key) ∈ s.made
  answers : ∀ sent ∈ s.requests, ∀ partition, sent.call = .create partition →
    ∀ claimed, .claim claimed ∈ sent.answers →
      (partition, ⟨claimed.holder, claimed.revision⟩) ∈ s.made

/-- This transaction was sent. -/
def Sent (s : ClaimStore) (request : ℕ) (call : ClaimCall) : Prop :=
  s.requests[request]?.map ClaimRequest.call = some call

/-- What nodes rely on stays. -/
structure Grows (s t : ClaimStore) : Prop where
  made : s.made ⊆ t.made
  sent : ∀ request call, s.Sent request call → t.Sent request call

variable {s t : ClaimStore}

theorem grows_refl (s : ClaimStore) : s.Grows s := ⟨fun _ h => h, fun _ _ h => h⟩

/-- A transaction that was answered another time. -/
theorem Grows.answered (h : s.Grows t) {request : ℕ} {sent : ClaimRequest}
    (hsent : s.requests[request]? = some sent) (answers : List ClaimAnswer) :
    s.Grows { t with requests := s.requests.set request { sent with answers } } := by
  refine ⟨h.made, fun other call hcall => ?_⟩
  change (s.requests.set request _)[other]?.map ClaimRequest.call = some call
  rw [List.getElem?_set]
  split_ifs with hsame hless
  · subst hsame
    rw [Sent, hsent] at hcall
    exact hcall
  · subst hsame
    rw [Sent, List.getElem?_eq_none (not_lt.mp hless)] at hcall
    exact hcall
  · exact hcall

theorem grows_append (s : ClaimStore) (sent : ClaimRequest) :
    s.Grows { s with requests := s.requests ++ [sent] } := by
  refine ⟨fun _ h => h, fun request call hcall => ?_⟩
  unfold Sent at hcall ⊢
  have hless : request < s.requests.length := by
    by_contra hge
    rw [List.getElem?_eq_none (not_lt.mp hge)] at hcall
    exact Option.some_ne_none _ hcall.symm
  change (s.requests ++ [sent])[request]?.map ClaimRequest.call = some call
  rw [List.getElem?_append_left hless]
  exact hcall

theorem sent_append (s : ClaimStore) (sent : ClaimRequest) :
    { s with requests := s.requests ++ [sent] : ClaimStore }.Sent s.requests.length sent.call := by
  change (s.requests ++ [sent])[s.requests.length]?.map ClaimRequest.call = some sent.call
  rw [List.getElem?_concat_length]
  rfl

theorem Sound.append (h : s.Sound) (node : Bytes) (call : ClaimCall) :
    { s with requests := s.requests ++ [{ node, call }] : ClaimStore }.Sound := by
  refine ⟨h.nonneg, h.numbered, h.unique, h.keys, fun sent hsent => ?_⟩
  rcases List.mem_append.mp hsent with hsent | hsent
  · exact h.answers sent hsent
  · rw [List.mem_singleton.mp hsent]
    exact fun _ _ _ hclaimed => absurd hclaimed List.not_mem_nil

theorem Sound.later (h : s.Sound) : { s with revision := s.revision + 1 : ClaimStore }.Sound := by
  refine ⟨?_, fun made hmade => ⟨(h.numbered made hmade).1, ?_⟩, h.unique, h.keys, h.answers⟩
  · change 0 ≤ s.revision + 1
    have hnonneg := h.nonneg
    omega
  · change made.2.created ≤ s.revision + 1
    have hle := (h.numbered made hmade).2
    omega

theorem Sound.expire (h : s.Sound) (partition : Partition) : (s.expire partition).Sound := by
  refine ⟨h.later.nonneg, h.later.numbered, h.unique, fun other key hkey => ?_, h.answers⟩
  change Function.update s.keys partition none other = some key at hkey
  rw [Function.update_apply] at hkey
  split_ifs at hkey
  exact h.keys other key hkey

/-- A claim is made at a revision no claim was made at. -/
theorem Sound.claim (h : s.Sound) (node : Bytes) (partition : Partition) :
    { s with
      revision := s.revision + 1
      keys := Function.update s.keys partition (some ⟨node, s.revision + 1⟩)
      made := (partition, ⟨node, s.revision + 1⟩) :: s.made : ClaimStore }.Sound := by
  have hnonneg := h.nonneg
  refine ⟨h.later.nonneg, fun made hmade => ?_, fun made hmade other hother hsame => ?_,
    fun other key hkey => ?_, fun sent hsent place hcall claimed hclaimed =>
      List.mem_cons_of_mem _ (h.answers sent hsent place hcall claimed hclaimed)⟩
  · rcases List.mem_cons.mp hmade with rfl | hmade
    · change 0 < s.revision + 1 ∧ s.revision + 1 ≤ s.revision + 1
      omega
    · exact h.later.numbered made hmade
  · rw [List.mem_cons] at hmade hother
    rcases hmade with rfl | hmade <;> rcases hother with rfl | hother
    · rfl
    · have hle := (h.numbered other hother).2
      change s.revision + 1 = other.2.created at hsame
      omega
    · have hle := (h.numbered made hmade).2
      change made.2.created = s.revision + 1 at hsame
      omega
    · exact h.unique made hmade other hother hsame
  · change Function.update s.keys partition _ other = some key at hkey
    rw [Function.update_apply] at hkey
    split_ifs at hkey with hsame
    · rw [hsame, ← Option.some.inj hkey]
      exact List.mem_cons_self
    · exact List.mem_cons_of_mem _ (h.keys other key hkey)

/-- What a transaction leaves in etcd, and that an answered claim was made. -/
theorem Sound.carryOut (h : s.Sound) (node : Bytes) (call : ClaimCall) :
    (s.carryOut node call).2.Sound ∧ (s.carryOut node call).2.requests = s.requests ∧
      s.made ⊆ (s.carryOut node call).2.made ∧
      ∀ partition, call = .create partition → ∀ claimed, .claim claimed = (s.carryOut node call).1 →
        (partition, ⟨claimed.holder, claimed.revision⟩) ∈ (s.carryOut node call).2.made := by
  cases call with
  | create partition =>
    rw [ClaimStore.carryOut, create]
    cases hkey : s.keys partition with
    | some key =>
      refine ⟨h, rfl, fun _ hmade => hmade, ?_⟩
      rintro _ ⟨⟩ _ ⟨⟩
      exact h.keys partition key hkey
    | none =>
      refine ⟨h.claim node partition, rfl, List.subset_cons_self _ _, ?_⟩
      rintro _ ⟨⟩ _ ⟨⟩
      exact List.mem_cons_self
  | remove partition =>
    rw [ClaimStore.carryOut, remove]
    split_ifs
    · refine ⟨h.expire partition, rfl, fun _ hmade => hmade, fun _ hcall => ?_⟩
      cases hcall
    · refine ⟨h, rfl, fun _ hmade => hmade, fun _ hcall => ?_⟩
      cases hcall

theorem Sound.apply (h : s.Sound) (request : ℕ) :
    (s.apply request).Sound ∧ s.Grows (s.apply request) := by
  unfold ClaimStore.apply
  cases hsent : s.requests[request]? with
  | none => exact ⟨h, s.grows_refl⟩
  | some sent =>
    obtain ⟨hsound, hrequests, hmade, hanswer⟩ := h.carryOut sent.node sent.call
    dsimp only
    rw [hrequests]
    refine ⟨⟨hsound.nonneg, hsound.numbered, hsound.unique, hsound.keys, fun other hother => ?_⟩,
      Grows.answered ⟨hmade, fun _ _ hcall => by rwa [Sent, hrequests]⟩ hsent _⟩
    rcases List.mem_or_eq_of_mem_set hother with hother | rfl
    · exact hsound.answers other (hrequests ▸ hother)
    · intro partition hcall claimed hclaimed
      rcases List.mem_append.mp hclaimed with hclaimed | hclaimed
      · exact hmade (h.answers sent (List.mem_of_getElem? hsent) partition hcall claimed hclaimed)
      · exact hanswer partition hcall claimed (List.mem_singleton.mp hclaimed)

/-- A claim that a create is answered with was made. -/
theorem Sound.heard (h : s.Sound) {request : ℕ} {partition : Partition}
    (hsent : s.Sent request (.create partition)) {answer : Option ℕ} {claimed : EtcdClaim}
    (hclaimed : ClaimAnswer.claimed (s.heard request answer) = some claimed) :
    (partition, ⟨claimed.holder, claimed.revision⟩) ∈ s.made := by
  obtain ⟨sent, hrequest, hcall⟩ := Option.map_eq_some_iff.mp hsent
  unfold ClaimStore.heard at hclaimed
  rw [hrequest] at hclaimed
  cases answer with
  | none => exact absurd hclaimed.symm (Option.some_ne_none _)
  | some answer =>
    change ClaimAnswer.claimed sent.answers[answer]? = some claimed at hclaimed
    cases hanswer : sent.answers[answer]? with
    | none =>
      rw [hanswer] at hclaimed
      exact absurd hclaimed.symm (Option.some_ne_none _)
    | some found =>
      rw [hanswer] at hclaimed
      cases found with
      | removed _ => exact absurd hclaimed.symm (Option.some_ne_none _)
      | claim other =>
        rw [← Option.some.inj hclaimed]
        exact h.answers sent (List.mem_of_getElem? hrequest) partition hcall other
          (List.mem_of_getElem? hanswer)

end ClaimStore

/-! ### What a node relies on -/

namespace Leading

variable {c : ClaimConfig} {n : Bytes} {partition : Partition}

theorem OwnTerm.mono {made later : List (Partition × LeaderKey)} {led : Leadership}
    {source : Option LeaderKey} (h : OwnTerm made n partition led source) (hmade : made ⊆ later) :
    OwnTerm later n partition led source := by
  intro hled
  obtain ⟨key, hsource, hkey, hrest⟩ := h hled
  exact ⟨key, hsource, hmade hkey, hrest⟩

/-- A leadership read back is right where the newest term of the node is that of the claim. -/
theorem ownTerm_readBack {made : List (Partition × LeaderKey)} {key : LeaderKey}
    {terms : PartitionTerms} (hkey : (partition, key) ∈ made)
    (hterm : key.holder = n → terms partition = key.created) :
    OwnTerm made n partition ((c.named n).readBack terms key.holder partition) (some key) := by
  intro hled
  have hmine : key.holder = n := of_decide_eq_true hled
  refine ⟨key, rfl, hkey, hmine, ?_⟩
  change (c.named n).termOf terms key.holder partition = key.created
  exact (if_neg (not_not.mpr hmine)).trans (hterm hmine)

/-- A leadership that a create answered is right as it is. -/
theorem ownTerm_ofClaim {made : List (Partition × LeaderKey)} {claimed : EtcdClaim}
    (h : (partition, ⟨claimed.holder, claimed.revision⟩) ∈ made) :
    OwnTerm made n partition ((c.named n).ofClaim claimed)
      (some ⟨claimed.holder, claimed.revision⟩) :=
  fun hled => ⟨_, rfl, h, of_decide_eq_true hled, rfl⟩

/-- What a list of leaderships holds. -/
def OwnTerms (made : List (Partition × LeaderKey)) (n : Bytes)
    (known : Partition → Option Leadership) (sources : Partition → Option LeaderKey) : Prop :=
  ∀ partition led, known partition = some led → OwnTerm made n partition led (sources partition)

theorem ownTerms_none (made : List (Partition × LeaderKey)) (n : Bytes)
    (sources : Partition → Option LeaderKey) : OwnTerms made n (fun _ => none) sources :=
  fun _ _ hled => absurd hled.symm (Option.some_ne_none _)

theorem OwnTerms.update {made : List (Partition × LeaderKey)}
    {known : Partition → Option Leadership} {sources : Partition → Option LeaderKey}
    (h : OwnTerms made n known sources) {led : Leadership} {source : Option LeaderKey}
    (hled : OwnTerm made n partition led source) :
    OwnTerms made n (Function.update known partition (some led))
      (Function.update sources partition source) := by
  intro other found hfound
  rw [Function.update_apply] at hfound ⊢
  split_ifs at hfound ⊢ with hsame
  · rw [hsame, ← Option.some.inj hfound]
    exact hled
  · exact h other found hfound

/-- A partition that a pass has not come to is in no list of it. -/
theorem OwnTerms.pass {made : List (Partition × LeaderKey)} {known : Partition → Option Leadership}
    {sources : Partition → Option LeaderKey} (h : OwnTerms made n known sources)
    (hnone : known partition = none) (source : Option LeaderKey) :
    OwnTerms made n known (Function.update sources partition source) := by
  intro other found hfound
  have hother : other ≠ partition := by
    rintro rfl
    rw [hnone] at hfound
    exact Option.some_ne_none _ hfound.symm
  rw [Function.update_of_ne hother]
  exact h other found hfound

/-- The newest term seen is one that was told, or none was. -/
def ToldTerm (seen : ℤ) (told : List ℤ) : Prop :=
  (seen = 0 ∨ seen ∈ told) ∧ ∀ term ∈ told, term ≤ seen

theorem ToldTerm.raise {seen : ℤ} {told : List ℤ} (h : ToldTerm seen told) (term : ℤ) :
    ToldTerm (max seen term) (term :: told) := by
  refine ⟨?_, List.forall_mem_cons.mpr ⟨le_max_right _ _, fun other hother =>
    (h.2 other hother).trans (le_max_left _ _)⟩⟩
  rcases max_choice seen term with hmax | hmax
  · rw [hmax]
    exact h.1.imp_right (List.mem_cons_of_mem _)
  · rw [hmax]
    exact Or.inr List.mem_cons_self

theorem ToldTerm.newest {seen : ℤ} {told : List ℤ} (h : ToldTerm seen told) {term : ℤ}
    (hpos : 0 < term) (hnewest : Newest told term) : seen = term := by
  have hle := h.2 term hnewest.1
  rcases h.1 with hzero | hmem
  · omega
  · exact le_antisymm (hnewest.2 seen hmem) hle

theorem toldTerm_raiseTo {terms : PartitionTerms} {told : Partition → List ℤ}
    (h : ∀ partition, ToldTerm (terms partition) (told partition)) (partition : Partition)
    (term : ℤ) (other : Partition) : ToldTerm (raiseTo terms partition term other)
      (Function.update told partition (term :: told partition) other) := by
  unfold raiseTo
  rw [Function.update_apply, Function.update_apply]
  split_ifs with hsame
  · exact (h partition).raise term
  · exact h other

/-- A pass under way knows who leads what it has come to and waits for the transaction of its
turn. -/
structure PassSound (c : ClaimConfig) (store : ClaimStore) (n : Bytes)
    (releasing : Partition → Option ℤ) (pass : LeadingPass) : Prop where
  keys : ∀ partition key, pass.keys partition = some key → (partition, key) ∈ store.made
  known : OwnTerms store.made n pass.w.known pass.sources
  left : pass.left.Nodup
  ahead : ∀ partition ∈ pass.left, pass.w.known partition = none
  request : ∀ request, pass.request = some request →
    ∀ partition rest, pass.left = partition :: rest →
    ∃ call, (c.named n).callOf releasing pass.now pass.registered pass.w.claims partition
      ((pass.keys partition).map LeaderKey.holder) = some call ∧ store.Sent request call

/-- What a thread in `leader` has of etcd. -/
def AskSound (store : ClaimStore) : Asking → Prop
  | .got partition _ (some key) => (partition, key) ∈ store.made
  | .creating partition request => store.Sent request (.create partition)
  | .listing partition claimed => (partition, ⟨claimed.holder, claimed.revision⟩) ∈ store.made
  | _ => True

structure NodeSound (c : ClaimConfig) (store : ClaimStore) (n : Bytes) (node : LeadingNode) :
    Prop where
  list : OwnTerms store.made n node.claimant.leaderList node.sources
  pass : ∀ pass, node.pass = some pass → PassSound c store n node.claimant.releasing pass
  asking : ∀ thread, AskSound store (node.asking thread)
  told : ∀ partition, ToldTerm (node.claimant.terms partition) (node.told partition)

/-- **The invariant**: etcd and every node are right about the claims there were, and so were the
answers. -/
structure Sound (c : ClaimConfig) (s : Leading) : Prop where
  store : s.store.Sound
  nodes : ∀ n, NodeSound c s.store n (s.nodes n)
  answers : ∀ a ∈ s.answers, OwnTerm s.store.made a.node a.partition a.led a.source

variable {s : Leading} {store later : ClaimStore} {node : LeadingNode}

theorem nodeSound_started (c : ClaimConfig) (store : ClaimStore) (n : Bytes) :
    NodeSound c store n {} where
  list := ownTerms_none _ _ _
  pass _ h := absurd h.symm (Option.some_ne_none _)
  asking _ := trivial
  told _ := ⟨Or.inl rfl, fun _ h => absurd h List.not_mem_nil⟩

theorem AskSound.mono {stage : Asking} (h : AskSound store stage) (hgrows : store.Grows later) :
    AskSound later stage := by
  cases stage with
  | idle => trivial
  | getting partition registered => trivial
  | got partition registered found =>
    cases found with
    | none => trivial
    | some key => exact hgrows.made h
  | creating partition request => exact hgrows.sent request _ h
  | listing partition claimed => exact hgrows.made h

theorem NodeSound.mono (h : NodeSound c store n node) (hgrows : store.Grows later) :
    NodeSound c later n node where
  list partition led hled := (h.list partition led hled).mono hgrows.made
  pass pass hpass := by
    obtain ⟨hkeys, hknown, hleft, hahead, hrequest⟩ := h.pass pass hpass
    refine ⟨fun partition key hkey => hgrows.made (hkeys partition key hkey),
      fun partition led hled => (hknown partition led hled).mono hgrows.made, hleft, hahead,
      fun request hwaits partition rest hturn => ?_⟩
    obtain ⟨call, hcall, hsent⟩ := hrequest request hwaits partition rest hturn
    exact ⟨call, hcall, hgrows.sent request call hsent⟩
  asking thread := (h.asking thread).mono hgrows
  told := h.told

theorem NodeSound.asks (h : NodeSound c store n node) (thread : ℕ) {stage : Asking}
    (hstage : AskSound store stage) : NodeSound c store n (node.asks thread stage) := by
  refine ⟨h.list, h.pass, fun other => ?_, h.told⟩
  change AskSound store (Function.update node.asking thread stage other)
  rw [Function.update_apply]
  split_ifs
  · exact hstage
  · exact h.asking other

theorem Sound.grows (h : s.Sound c) (hlater : later.Sound) (hgrows : s.store.Grows later) :
    Sound c { s with store := later } where
  store := hlater
  nodes n := (h.nodes n).mono hgrows
  answers a ha := (h.answers a ha).mono hgrows.made

theorem Sound.put (h : s.Sound c) (hnode : NodeSound c s.store n node) :
    (s.put n node).Sound c := by
  refine ⟨h.store, fun other => ?_, h.answers⟩
  change NodeSound c s.store other (Function.update s.nodes n node other)
  by_cases hsame : other = n
  · rw [hsame, Function.update_self]
    exact hnode
  · rw [Function.update_of_ne hsame]
    exact h.nodes other

theorem Sound.replies (h : s.Sound c) {led : Leadership} {source : Option LeaderKey}
    (hled : OwnTerm s.store.made n partition led source) :
    (s.replies n partition led source).Sound c :=
  ⟨h.store, h.nodes, List.forall_mem_cons.mpr ⟨hled, h.answers⟩⟩

theorem Sound.goes (h : s.Sound c) (thread : ℕ) {stage : Asking} (hstage : AskSound s.store stage) :
    (s.goes n thread stage).Sound c :=
  h.put ((h.nodes n).asks thread hstage)

theorem Sound.returns (h : s.Sound c) (thread : ℕ) {led : Leadership} {source : Option LeaderKey}
    (hled : OwnTerm s.store.made n partition led source) :
    (s.returns n thread partition led source).Sound c := by
  have hidle : AskSound s.store .idle := trivial
  exact (h.goes thread hidle).replies hled

/-- Whoever is not to lead may be told anything. -/
theorem ownTerm_away {made : List (Partition × LeaderKey)} {led : Leadership}
    {source : Option LeaderKey} (haway : led.isLocal = false) :
    OwnTerm made n partition led source :=
  fun hled => absurd (haway.symm.trans hled) Bool.false_ne_true

/-- A node that goes on to wait for the transaction it sends. -/
theorem Sound.sends (h : s.Sound c) (call : ClaimCall)
    (hnode : NodeSound c (s.sends n call).store n node) :
    ((s.put n node).sends n call).Sound c := by
  have hsent := h.grows (h.store.append n call) (s.store.grows_append _)
  exact hsent.put hnode

end Leading

/-! ### The end of a turn -/

namespace Leading

variable {c : ClaimConfig} {n : Bytes} {partition : Partition} {store : ClaimStore}
  {node : LeadingNode} {pass : LeadingPass} {rest : List Partition} {answer : Option ClaimAnswer}

/-- A pass after a turn of it: it knows what it knew, and who leads the partition of the turn if it
found that out. -/
theorem PassSound.next {releasing : Partition → Option ℤ} (h : PassSound c store n releasing pass)
    (hleft : pass.left = partition :: rest) {w : Claimant.Walk} {source : Option LeaderKey}
    (hknown : w.known = pass.w.known ∨ ∃ led, OwnTerm store.made n partition led source ∧
      w.known = Function.update pass.w.known partition (some led)) :
    PassSound c store n releasing { pass with
      left := rest, w, request := none
      sources := Function.update pass.sources partition source } := by
  have hnodup := h.left
  rw [hleft, List.nodup_cons] at hnodup
  have hnone : pass.w.known partition = none := h.ahead partition (hleft ▸ List.mem_cons_self)
  refine ⟨h.keys, ?_, hnodup.2, fun other hother => ?_, fun _ hrequest => absurd hrequest.symm
    (Option.some_ne_none _)⟩
  · change OwnTerms store.made n w.known _
    rcases hknown with hsame | ⟨led, hled, hupdate⟩
    · rw [hsame]
      exact h.known.pass hnone source
    · rw [hupdate]
      exact h.known.update hled
  · change w.known other = none
    have hahead : pass.w.known other = none := h.ahead other (hleft ▸ List.mem_cons_of_mem _ hother)
    rcases hknown with hsame | ⟨led, -, hupdate⟩
    · rw [hsame]
      exact hahead
    · have hne : other ≠ partition := by
        rintro rfl
        exact hnodup.1 hother
      rw [hupdate, Function.update_of_ne hne]
      exact hahead

theorem NodeSound.passes (h : NodeSound c store n node)
    (hpass : PassSound c store n node.claimant.releasing pass) :
    NodeSound c store n { node with pass := some pass } := by
  refine ⟨h.list, fun after hafter => ?_, h.asking, h.told⟩
  rw [← Option.some.inj hafter]
  exact hpass

/-- A node that a create was answered to: it is told the term it sees. -/
theorem NodeSound.hears (h : NodeSound c store n node) (partition : Partition)
    (claimed : EtcdClaim) :
    NodeSound c store n { node.hears partition claimed with
      claimant := { node.claimant with
        terms := if claimed.held then raiseTo node.claimant.terms partition claimed.revision
          else node.claimant.terms } } := by
  unfold LeadingNode.hears
  split_ifs
  · exact ⟨h.list, h.pass, h.asking, toldTerm_raiseTo h.told partition claimed.revision⟩
  · exact h

/-- The end of a turn, where the node reads its own name back only from a claim it was told of. -/
theorem NodeSound.advance (h : NodeSound c store n node) (hstore : store.Sound)
    (hpass : node.pass = some pass) (hleft : pass.left = partition :: rest)
    (hcall : (c.named n).callOf node.claimant.releasing pass.now pass.registered pass.w.claims
      partition ((pass.keys partition).map LeaderKey.holder) = none → answer = none)
    (hread : ∀ key, pass.keys partition = some key →
      ¬ (((c.named n).callOf node.claimant.releasing pass.now pass.registered pass.w.claims
        partition (some key.holder)).isSome ∧ ClaimAnswer.gone answer = true) →
      key.holder = n → Newest (node.told partition) key.created)
    (hmade : pass.keys partition = none → ∀ claimed, ClaimAnswer.claimed answer = some claimed →
      (partition, ⟨claimed.holder, claimed.revision⟩) ∈ store.made) :
    NodeSound c store n (node.advance (c.named n) pass partition rest answer) := by
  have hsound := h.pass pass hpass
  unfold LeadingNode.advance
  dsimp only
  cases hkey : pass.keys partition with
  | some key =>
    dsimp only
    have hmem := hsound.keys partition key hkey
    refine h.passes (hsound.next hleft ?_)
    rw [ClaimConfig.held_eq.2.2]
    split_ifs with hgone
    · exact Or.inl rfl
    · refine Or.inr ⟨_, ownTerm_readBack hmem fun hmine => ?_, rfl⟩
      exact (h.told partition).newest (hstore.numbered _ hmem).1 (hread key hkey hgone hmine)
  | none =>
    dsimp only
    rw [hkey] at hcall
    rcases ClaimConfig.unheld_eq (c.named n) node.claimant.releasing pass.now (pass.given answer)
        { pass.w with terms := node.claimant.terms } partition with
      ⟨hnothing, hsame⟩ | ⟨-, -, hknown, hterms⟩
    · rw [hsame, hcall hnothing]
      exact h.passes (hsound.next hleft (Or.inl rfl))
    · change _ = (ClaimAnswer.claimed answer).elim _ _ at hknown hterms
      rw [hterms]
      cases hclaimed : ClaimAnswer.claimed answer with
      | none =>
        rw [hclaimed] at hknown
        exact h.passes (hsound.next hleft (Or.inl hknown))
      | some claimed =>
        rw [hclaimed] at hknown
        have hclaim := ownTerm_ofClaim (c := c) (n := n) (hmade hkey claimed hclaimed)
        exact (h.hears partition claimed).passes (hsound.next hleft (Or.inr ⟨_, hclaim, hknown⟩))

end Leading

/-! ### Steps -/

/-- A pass comes to each partition once. -/
theorem Claimant.nodup_walkOrder (c : ClaimConfig) : (Claimant.walkOrder c).Nodup := by
  refine List.nodup_range.map_on fun i hi j hj hsame => ?_
  have hsame := congrArg Fin.val hsame
  dsimp only at hsame
  rw [List.mem_range] at hi hj
  unfold partitionCount at *
  omega

namespace Leading

variable {c : ClaimConfig} {s : Leading} {n : Bytes} {pass : LeadingPass} {partition : Partition}
  {rest : List Partition}

theorem Sound.range (h : s.Sound c) (registered : List Member) (lease now : ℤ) (reached : Bool) :
    (s.range c n registered lease now reached).Sound c := by
  have hnode := h.nodes n
  unfold Leading.range
  dsimp only
  split_ifs
  · exact h
  · refine h.put (hnode.passes ⟨h.store.keys, ownTerms_none _ _ _, Claimant.nodup_walkOrder _,
      fun _ _ => rfl, fun _ hrequest => absurd hrequest.symm (Option.some_ne_none _)⟩)
  · exact h.put ⟨ownTerms_none _ _ _, hnode.pass, hnode.asking, hnode.told⟩

/-- A turn that sends nothing reads back the key it finds. -/
theorem newest_turn (hread : s.ToldOf c (.at n .turn)) (hpass : (s.nodes n).pass = some pass)
    (hrequest : pass.request = none) (hleft : pass.left = partition :: rest) {key : LeaderKey}
    (hkey : pass.keys partition = some key)
    (hcall : (c.named n).callOf (s.nodes n).claimant.releasing pass.now pass.registered
      pass.w.claims partition (some key.holder) = none) (hmine : key.holder = n) :
    Newest ((s.nodes n).told partition) key.created := by
  refine hread (n, partition, key) ?_ hmine
  rw [readsBack, hpass, Option.bind_eq_bind, Option.bind_some, hleft, List.head?_cons,
    Option.bind_eq_bind, Option.bind_some, hkey, Option.bind_eq_bind, Option.bind_some,
      if_pos ⟨hrequest, hcall⟩]
  rfl

/-- So does a turn whose transaction did not remove the key. -/
theorem newest_turned {answer : Option ℕ} (hread : s.ToldOf c (.at n (.turned answer)))
    (hpass : (s.nodes n).pass = some pass) {request : ℕ} (hrequest : pass.request = some request)
    (hleft : pass.left = partition :: rest) {key : LeaderKey}
    (hkey : pass.keys partition = some key)
    (hgone : ¬ ClaimAnswer.gone (s.store.heard request answer) = true) (hmine : key.holder = n) :
    Newest ((s.nodes n).told partition) key.created := by
  refine hread (n, partition, key) ?_ hmine
  rw [readsBack, hpass, Option.bind_eq_bind, Option.bind_some, hrequest, Option.bind_eq_bind,
    Option.bind_some, hleft, List.head?_cons, Option.bind_eq_bind, Option.bind_some, hkey,
    Option.bind_eq_bind, Option.bind_some, if_neg hgone]
  rfl

theorem Sound.turn (h : s.Sound c) (hread : s.ToldOf c (.at n .turn)) : (s.turn c n).Sound c := by
  have hnode := h.nodes n
  unfold Leading.turn
  dsimp only
  split
  · exact h
  · next pass hpass =>
    split
    · next partition rest hrequest hleft =>
      split
      · next call hcall =>
        have hlater := hnode.mono (s.store.grows_append { node := n, call })
        refine h.sends call (hlater.passes ?_)
        obtain ⟨hkeys, hknown, hnodup, hahead, -⟩ := hlater.pass pass hpass
        refine ⟨hkeys, hknown, hnodup, hahead, fun request hwaits other others hother => ?_⟩
        obtain ⟨rfl, -⟩ := List.cons.inj (hother.symm.trans hleft)
        rw [← Option.some.inj hwaits]
        exact ⟨call, hcall, s.store.sent_append { node := n, call }⟩
      · next hcall =>
        refine h.put (hnode.advance h.store hpass hleft (fun _ => rfl) (fun key hkey _ hmine => ?_)
          (fun _ _ hclaimed => absurd hclaimed.symm (Option.some_ne_none _)))
        rw [hkey] at hcall
        exact newest_turn hread hpass hrequest hleft hkey hcall hmine
    · exact h

theorem Sound.turned (h : s.Sound c) {answer : Option ℕ}
    (hread : s.ToldOf c (.at n (.turned answer))) : (s.turned c n answer).Sound c := by
  have hnode := h.nodes n
  unfold Leading.turned
  dsimp only
  split
  · exact h
  · next pass hpass =>
    split
    · next request partition rest hrequest hleft =>
      obtain ⟨call, hcall, hsent⟩ :=
        (hnode.pass pass hpass).request request hrequest partition rest hleft
      refine h.put (hnode.advance h.store hpass hleft (fun hnone => ?_)
        (fun key hkey hgone hmine => ?_) (fun hkey claimed hclaimed => ?_))
      · exact absurd (hcall.symm.trans hnone) (Option.some_ne_none call)
      · rw [hkey] at hcall
        refine newest_turned hread hpass hrequest hleft hkey (fun hremoved => hgone ⟨?_, hremoved⟩)
          hmine
        exact Option.isSome_iff_exists.mpr ⟨call, hcall⟩
      · -- the key is not there, so the transaction is a create
        rw [hkey, Option.map_none] at hcall
        rcases ClaimConfig.unheld_eq (c.named n) (s.nodes n).claimant.releasing pass.now
            (pass.given none) pass.w partition with ⟨hnone, -⟩ | ⟨hcreate, -⟩
        · exact absurd (hcall.symm.trans hnone) (Option.some_ne_none call)
        · obtain rfl := Option.some.inj (hcall.symm.trans hcreate)
          exact h.store.heard hsent hclaimed
    · exact h

theorem Sound.close (h : s.Sound c) : (s.close n).Sound c := by
  have hnode := h.nodes n
  unfold Leading.close
  split
  · exact h
  · next pass hpass =>
    split_ifs
    · exact h.put ⟨(hnode.pass pass hpass).known,
        fun _ hnone => absurd hnone.symm (Option.some_ne_none _), hnode.asking, hnode.told⟩
    · exact h

theorem Sound.ask (h : s.Sound c) (thread : ℕ) (key : Bytes) (answered : Bool)
    (registered : List Member) : (s.ask n thread key answered registered).Sound c := by
  unfold Leading.ask
  split
  · split_ifs
    · exact h.replies (ownTerm_away rfl)
    · split
      · next led hled => exact h.replies ((h.nodes n).list _ led hled)
      · exact h.goes thread trivial
  · exact h

theorem Sound.get (h : s.Sound c) (thread : ℕ) (reached : Bool) :
    (s.get n thread reached).Sound c := by
  unfold Leading.get
  split
  · next partition registered hstage =>
    split_ifs
    · refine h.goes thread ?_
      cases hkey : s.store.keys partition with
      | none => trivial
      | some key => exact h.store.keys partition key hkey
    · exact h.returns thread (ownTerm_away rfl)
  · exact h

theorem Sound.resolve (h : s.Sound c) {thread : ℕ} {lease : ℤ}
    (hread : s.ToldOf c (.at n (.resolve thread lease))) :
    (s.resolve c n thread lease).Sound c := by
  have hnode := h.nodes n
  have hasking := hnode.asking thread
  unfold Leading.resolve
  split
  · next partition registered key hstage =>
    rw [hstage] at hasking
    refine h.returns thread (ownTerm_readBack hasking fun hmine => ?_)
    refine (hnode.told partition).newest (h.store.numbered _ hasking).1
      (hread (n, partition, key) ?_ hmine)
    rw [readsBack, hstage]
    rfl
  · next partition registered hstage =>
    dsimp only
    split_ifs
    · exact h.returns thread (ownTerm_away rfl)
    · exact h.returns thread (ownTerm_away rfl)
    · refine h.sends _ ((hnode.mono (s.store.grows_append _)).asks thread ?_)
      exact s.store.sent_append { node := n, call := .create partition }
  · exact h

theorem Sound.created (h : s.Sound c) (thread : ℕ) (answer : Option ℕ) :
    (s.created n thread answer).Sound c := by
  have hnode := h.nodes n
  have hasking := hnode.asking thread
  unfold Leading.created
  split
  · next partition request hstage =>
    rw [hstage] at hasking
    split
    · exact h.returns thread (ownTerm_away rfl)
    · next claimed hclaimed =>
      exact h.put ((hnode.hears partition claimed).asks thread (h.store.heard hasking hclaimed))
  · exact h

theorem Sound.list (h : s.Sound c) (thread : ℕ) : (s.list c n thread).Sound c := by
  have hnode := h.nodes n
  have hasking := hnode.asking thread
  unfold Leading.list
  split
  · next partition claimed hstage =>
    rw [hstage] at hasking
    have hled := ownTerm_ofClaim (c := c) (n := n) hasking
    refine (Sound.put h ?_).returns thread hled
    exact ⟨hnode.list.update hled, hnode.pass, hnode.asking, hnode.told⟩
  · exact h

theorem Sound.accept (h : s.Sound c) (key : Bytes) (term : ℤ) : (s.accept n key term).Sound c := by
  have hnode := h.nodes n
  refine h.put ?_
  dsimp only
  rw [Claimant.accept]
  split_ifs
  · exact hnode
  · exact ⟨hnode.list, hnode.pass, hnode.asking, toldTerm_raiseTo hnode.told (partitionOf key) term⟩

theorem Sound.restore (h : s.Sound c) (applied : PartitionTerms) :
    (s.restore n applied).Sound c := by
  have hnode := h.nodes n
  exact h.put ⟨hnode.list, hnode.pass, hnode.asking, fun partition =>
    (hnode.told partition).raise (applied partition)⟩

/-- **One step.** -/
theorem Sound.step (h : s.Sound c) {e : LeadingEvent} (hread : s.ToldOf c e) :
    (s.step c e).Sound c := by
  cases e with
  | expire partition =>
    exact h.grows (h.store.expire partition) ⟨fun _ hmade => hmade, fun _ _ hsent => hsent⟩
  | written => exact h.grows h.store.later ⟨fun _ hmade => hmade, fun _ _ hsent => hsent⟩
  | apply request => exact h.grows (h.store.apply request).1 (h.store.apply request).2
  | «at» n event =>
    rw [Leading.step]
    split_ifs
    · cases event with
      | range registered lease now reached => exact h.range registered lease now reached
      | turn => exact h.turn hread
      | turned answer => exact h.turned hread
      | close => exact h.close
      | ask thread key answered registered => exact h.ask thread key answered registered
      | get thread reached => exact h.get thread reached
      | resolve thread lease => exact h.resolve hread
      | created thread answer => exact h.created thread answer
      | list thread => exact h.list thread
      | accept key term => exact h.accept key term
      | restore applied => exact h.restore applied
      | restart => exact h.put (nodeSound_started c s.store n)
    · exact h

/-- What the invariant says of the answers. -/
theorem Sound.ledByClaim (h : s.Sound c) : s.LedByClaim := by
  refine ⟨h.answers, fun a ha b hb hlocal hother _ _ hterm => ?_,
    fun a ha b hb hlocal hother _ hsource => ?_⟩
  · obtain ⟨key, -, hkey, hholder, hcreated⟩ := h.answers a ha hlocal
    obtain ⟨other, -, hmade, hheld, hnumber⟩ := h.answers b hb hother
    -- one revision makes one claim
    have hsame := h.store.unique _ hkey _ hmade (by rw [← hcreated, ← hnumber, hterm])
    rw [← hholder, ← hheld, (Prod.mk.inj hsame).2]
  · obtain ⟨key, hkey, -, -, hcreated⟩ := h.answers a ha hlocal
    obtain ⟨other, hmade, -, -, hnumber⟩ := h.answers b hb hother
    rw [hcreated, hnumber, Option.some.inj (hkey.symm.trans (hsource.trans hmade))]

/-- **Leading in the term of a claim**: in every run of any number of nodes in which a node reads
its own name back only from a claim that it has been told the term of, and no newer term, whoever is
told to lead a partition is told the term of a claim of its own on it, nobody else is told that
term, and one claim is led in one term. -/
theorem led_by_claim (c : ClaimConfig) (es : List LeadingEvent)
    (h : Throughout (step c) (ToldOf c) {} es) : Always (step c) LedByClaim {} es := by
  have hledger : ({} : ClaimStore).Sound := ⟨le_rfl, List.forall_mem_nil _, List.forall_mem_nil _,
    fun _ _ hkey => absurd hkey.symm (Option.some_ne_none _), List.forall_mem_nil _⟩
  have hstart : ({} : Leading).Sound c := ⟨hledger, nodeSound_started c {}, List.forall_mem_nil _⟩
  exact Always.mono (fun _ hsound => hsound.ledByClaim)
    (h.always (fun _ _ hsound hread => hsound.step hread) hstart)

/-- A cluster with two members of etcd. -/
def twoMembers : ClaimConfig := { endpoints := [ascii "e", ascii "f"], node := [] }

/-- A node of two claims a partition for a write, in a transaction that is carried out twice, and is
asked again once its list is empty. It hears the answer of this number. -/
def claimedAgain (answer : ℕ) : List LeadingEvent :=
  let members : List Member := [⟨ascii "a", ascii "z"⟩, ⟨ascii "b", ascii "y"⟩]
  [.at (ascii "b") (.ask 0 (ascii "k") true members), .at (ascii "b") (.get 0 true),
    .at (ascii "b") (.resolve 0 7), .apply 0, .apply 0, .at (ascii "b") (.created 0 (some answer)),
    .at (ascii "b") (.list 0), .at (ascii "b") (.range members 7 0 false),
    .at (ascii "b") (.ask 0 (ascii "k") true members), .at (ascii "b") (.get 0 true),
    .at (ascii "b") (.resolve 0 7)]

/-- Where the first answer arrives, the claim is read back in its term. -/
theorem led_by_claim_again :
    (run (step twoMembers) {} (claimedAgain 0)).answers.map (fun a => (a.led.isLocal, a.led.term)) =
        [(true, 1), (true, 1)] ∧
      Always (step twoMembers) LedByClaim {} (claimedAgain 0) :=
  ⟨by decide +kernel, led_by_claim twoMembers _ (by decide +kernel)⟩

/-- **Where it is lost and the second arrives**, the node leads by one claim in the term of it and
then in none. -/
theorem lost_create_led : ¬ Always (step twoMembers) LedByClaim {} (claimedAgain 1) := by
  intro h
  have hanswers : ((run (step twoMembers) {} (claimedAgain 1)).answers.map
      fun a => (a.led.isLocal, a.led.term, a.source)) =
      [(true, 0, some ⟨ascii "b", 1⟩), (true, 1, some ⟨ascii "b", 1⟩)] := by decide +kernel
  have hlast := h.last
  generalize run _ _ (claimedAgain 1) = s at hanswers hlast
  obtain ⟨a, rest, hsplit, ha, -⟩ := List.map_eq_cons_iff.mp hanswers
  obtain ⟨hlocal, hterm⟩ := Prod.mk.inj ha
  obtain ⟨hterm, hsource⟩ := Prod.mk.inj hterm
  obtain ⟨key, hkey, -, -, hcreated⟩ := hlast.own a (hsplit ▸ List.mem_cons_self) hlocal
  rw [hsource] at hkey
  rw [hterm, ← Option.some.inj hkey] at hcreated
  exact absurd hcreated (by decide)

end Leading

end AsyncDatabase
