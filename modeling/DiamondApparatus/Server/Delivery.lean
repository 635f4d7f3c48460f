import Mathlib.Data.Finset.Basic
import DiamondApparatus.Server.Refine

/-!
# Delivery is exact

* `Happening` : an accept, a close, or a packet of a client; `Legal` : the histories the system can
  produce, by what it knows itself of the open descriptors;
* `Serves conns s` : the server `s` has exactly the connections `conns`, and its books in order;
* `happening_step`, `update_refines`, `serve_running` : through every legal history the server runs
  without a fault, as the broker that is asked what the packets ask;
* `delivery_exact` : so a connection is sent, for each topic, exactly what it is to hear.
-/

namespace DiamondApparatus
open Lib Std

/-- What happens to a server whose peers are clients. -/
inductive Happening
  | accept (fd : Nat)
  | packet (fd : Nat) (p : ClientPacket) (tail : Bytes) (now : Now)
  | close (fd : Nat)

namespace Happening

def event : Happening → Event
  | accept fd => .accept fd
  | packet fd p tail now => .packet fd p.bytes tail now
  | close fd => .close fd

def ops : Happening → List (Broker.Op Nat CString (List Datum))
  | accept _ => []
  | packet fd p _ _ => p.ops fd
  | close fd => [.leave fd]

end Happening

def requests (hs : List Happening) : List (Broker.Op Nat CString (List Datum)) :=
  hs.flatMap Happening.ops

namespace MyServer

def connsAfter (conns : Finset Nat) : Happening → Finset Nat
  | .accept fd => insert fd conns
  | .packet _ _ _ _ => conns
  | .close fd => conns.erase fd

/-- `accept` returns a descriptor that the process does not have open and that is below `FD_SETSIZE`;
a packet or an end comes from an open connection. -/
def Possible (listenfd : Nat) (others : FdSet) (conns : Finset Nat) : Happening → Prop
  | .accept fd => fd ∉ others ∧ fd ≠ listenfd ∧ fd ∉ conns ∧ fd < FD_SETSIZE
  | .packet fd _ _ _ => fd ∈ conns
  | .close fd => fd ∈ conns

/-- The histories that can happen to a process that has `listenfd` and `others` open. -/
def Legal (listenfd : Nat) (others : FdSet) : Finset Nat → List Happening → Prop
  | _, [] => True
  | conns, h :: hs => Possible listenfd others conns h ∧ Legal listenfd others (connsAfter conns h) hs

theorem legal_append {listenfd : Nat} {others : FdSet} {conns : Finset Nat} {hs hs' : List Happening} :
    Legal listenfd others conns (hs ++ hs') ↔ Legal listenfd others conns hs ∧
      Legal listenfd others (hs.foldl connsAfter conns) hs' := by
  induction hs generalizing conns with
  | nil => simp [Legal]
  | cons h hs ih => rw [List.cons_append, Legal, Legal, ih, and_assoc, List.foldl_cons]

structure Serves (listenfd : Nat) (others : FdSet) (conns : Finset Nat) (s : MyServer) : Prop where
  books : Bookkeeping s
  listens : s.listenfd = listenfd
  clients : ∀ fd, fd ∈ s.clients ↔ fd ∈ conns
  fds : ∀ fd, fd ∈ s.openFds ↔ fd ∈ others ∨ fd = listenfd ∨ fd ∈ conns
  apart : ∀ fd ∈ conns, fd ∉ others ∧ fd ≠ listenfd
  alive : s.serverKill = false

variable {listenfd : Nat} {others : FdSet} {conns : Finset Nat} {s : MyServer}

/-! ## One happening -/

theorem Serves.accept (h : Serves listenfd others conns s) {fd : Nat}
    (hfd : Possible listenfd others conns (.accept fd)) :
    Serves listenfd others (insert fd conns) (s.acceptClient fd) := by
  obtain ⟨hothers, hlisten, hconns, -⟩ := hfd
  have hfresh : fd ∉ s.openFds := by
    rw [h.fds]
    exact fun hor => hor.elim hothers fun hor => hor.elim hlisten hconns
  refine ⟨h.books.acceptClient hfresh, h.listens, fun k => ?_, fun k => ?_, fun k hk => ?_, h.alive⟩
  · show k ∈ s.clients.insert fd _ ↔ _
    rw [ExtTreeMap.mem_insert, LawfulEqCmp.compare_eq_iff_eq, h.clients, Finset.mem_insert, eq_comm]
  · show k ∈ s.openFds.insert fd ↔ _
    rw [ExtTreeSet.mem_insert, LawfulEqCmp.compare_eq_iff_eq, h.fds, Finset.mem_insert,
      eq_comm (a := fd)]
    tauto
  · rcases Finset.mem_insert.1 hk with rfl | hk
    · exact ⟨hothers, hlisten⟩
    · exact h.apart k hk

theorem Serves.close (h : Serves listenfd others conns s) {fd : Nat} (hfd : fd ∈ conns) :
    Serves listenfd others (conns.erase fd) (s.closed fd) := by
  obtain ⟨hothers, hlisten⟩ := h.apart fd hfd
  refine ⟨h.books.closed (h.listens ▸ hlisten), h.listens, fun k => ?_, fun k => ?_, fun k hk => ?_,
    h.alive⟩
  · show k ∈ s.clients.erase fd ↔ _
    rw [ExtTreeMap.mem_erase, h.clients, Finset.mem_erase, ne_eq, LawfulEqCmp.compare_eq_iff_eq,
      eq_comm]
  · show k ∈ s.openFds.erase fd ↔ _
    rw [ExtTreeSet.mem_erase, h.fds, Finset.mem_erase, ne_eq, LawfulEqCmp.compare_eq_iff_eq]
    by_cases hk : fd = k
    · subst hk
      tauto
    · have := Ne.symm hk
      tauto
  · exact h.apart k (Finset.mem_of_mem_erase hk)

theorem Serves.enabled (h : Serves listenfd others conns s) {fd : Nat} (hfd : fd ∈ conns) :
    fd ∈ s.clients :=
  (h.clients fd).2 hfd

/-- **One happening**: no fault, and the broker's answer to what it asks. -/
theorem happening_step (h : Serves listenfd others conns s) (x : Happening)
    (hx : Possible listenfd others conns x) :
    ∃ s' ops, s.step x.event = (s', none) ∧ Serves listenfd others (connsAfter conns x) s' ∧
      Refines s s' ops ∧ SameForClients ops x.ops := by
  cases x with
  | accept fd =>
    exact ⟨s.acceptClient fd, [], rfl, h.accept hx, refines_nil rfl rfl, fun _ _ _ => rfl⟩
  | packet fd p tail now =>
    have hmem := h.enabled hx
    obtain ⟨s', ops, hs', href, haround, hkill⟩ := receive_refines h.books hmem p tail now
    have hk := receive_keeps h.books hmem p.bytes tail now
    rw [hs'] at hk
    refine ⟨s', ops, hs', ⟨hk.books, hk.listenfd.trans h.listens, ?_, ?_, h.apart,
      hkill.trans h.alive⟩, href, haround.same⟩
    · intro k
      rw [hk.clients]
      exact h.clients k
    · intro k
      rw [hk.openFds]
      exact h.fds k
  | close fd =>
    exact ⟨s.closed fd, _, step_close h.books (h.enabled hx), h.close hx, closed_refines h.books fd,
      fun _ _ _ => rfl⟩

/-! ## Runs -/

/-- **Every legal history**: the run goes through, and the messages are the broker's. -/
theorem update_refines (hs : List Happening) (h : Serves listenfd others conns s)
    (hlegal : Legal listenfd others conns hs) :
    ∃ s' ops, s.update (hs.map Happening.event) = (s', none) ∧
      Serves listenfd others (hs.foldl connsAfter conns) s' ∧ Refines s s' ops ∧
      SameForClients ops (requests hs) := by
  induction hs generalizing conns s with
  | nil => exact ⟨s, [], rfl, h, refines_nil rfl rfl, fun _ _ _ => rfl⟩
  | cons x hs ih =>
    obtain ⟨hx, hlegal⟩ := hlegal
    obtain ⟨t, ops, ht, hserves, href, hsame⟩ := happening_step h x hx
    obtain ⟨s', ops', hs', hserves', href', hsame'⟩ := ih hserves hlegal
    refine ⟨s', ops ++ ops', ?_, hserves', href.trans href', hsame.append hsame'⟩
    rw [List.map_cons, update, ht]
    exact hs'

theorem update_append {t : MyServer} {es : List Event} (h : s.update es = (t, none)) (fs : List Event) :
    s.update (es ++ fs) = t.update fs := by
  induction es generalizing s with
  | nil =>
    obtain ⟨rfl, -⟩ := Prod.mk.injEq .. ▸ h
    rfl
  | cons e es ih =>
    rw [List.cons_append, update]
    rw [update] at h
    split at h
    · cases h
    · exact ih h

/-- `server()` is still running after a legal history, in whatever rounds `select` delivers it. -/
theorem serve_running (rounds : List (List Happening)) (h : Serves listenfd others conns s)
    (hlegal : Legal listenfd others conns rounds.flatten) :
    ∃ s', s.serve (rounds.map (List.map Happening.event)) = .running s' := by
  induction rounds generalizing conns s with
  | nil => exact ⟨s, rfl⟩
  | cons round rounds ih =>
    rw [List.flatten_cons, legal_append] at hlegal
    obtain ⟨t, ops, ht, hserves, -, -⟩ := update_refines round h hlegal.1
    obtain ⟨s', hs'⟩ := ih hserves hlegal.2
    refine ⟨s', ?_⟩
    rw [List.map_cons, serve, ht]
    simp only [hserves.alive, Bool.false_eq_true, if_false]
    exact hs'

/-! ## From the constructor on -/

theorem toAll_bare (n : CString) (p : Bytes) : (bare listenfd others).toAll n p = [] := by
  have hempty : (bare listenfd others).subscribers.entry n = ∅ := by
    simp [bare, SetMap.entry]
  rw [toAll, hempty]
  rfl

theorem new_refines (listenfd : Nat) (others : FdSet) (now : Now) :
    ∃ ops, Refines (bare listenfd others) (new listenfd others now) (.post versionName versionTopic.d :: ops) ∧
      SameForClients ops [] := by
  rw [new_eq]
  have hstats := rebuildStatsTopic_rebuilds ((bare listenfd others).setTopic versionName versionTopic) now
  have htopics := rebuildTopicsTopic_rebuilds
    (((bare listenfd others).setTopic versionName versionTopic).rebuildStatsTopic now)
  have hversion : Refines (bare listenfd others) ((bare listenfd others).setTopic versionName versionTopic)
      [.post versionName versionTopic.d] := by
    refine refines_post ?_ rfl (by decide)
    rw [toAll_bare]
    exact setTopic_talks _ _ _
  refine ⟨[.post statsName _, .post topicsName _],
    hversion.trans ((hstats.refines (by decide)).trans (htopics.refines (by decide))), ?_⟩
  refine sameForClients_own fun o ho => ?_
  rw [List.mem_cons, List.mem_singleton] at ho
  rcases ho with rfl | rfl
  · exact ⟨statsName, _, Or.inl rfl, rfl⟩
  · exact ⟨topicsName, _, Or.inr rfl, rfl⟩

theorem serves_new (listenfd : Nat) (others : FdSet) (now : Now) :
    Serves listenfd others ∅ (new listenfd others now) := by
  obtain ⟨out, ht⟩ := new_talks listenfd others now
  refine ⟨bookkeeping_new listenfd others now, ht.listenfd, fun fd => ?_, fun fd => ?_, by simp,
    ht.serverKill⟩
  · rw [ht.clients]
    simp [bare]
  · rw [ht.openFds]
    show fd ∈ others.insert listenfd ↔ _
    rw [ExtTreeSet.mem_insert, LawfulEqCmp.compare_eq_iff_eq]
    simp [or_comm, eq_comm]

/-- What the constructor stores in a topic it does not rebuild. -/
def initially (n : CString) : Option (List Datum) :=
  if n = versionName then some versionTopic.d else none

theorem stored_new {n : CString} (hstats : n ≠ statsName) (htopics : n ≠ topicsName) (now : Now) :
    (new listenfd others now).broker.stored n = initially n := by
  obtain ⟨ops, href, hsame⟩ := new_refines listenfd others now
  have hbare : (bare listenfd others).broker.stored n = none := by
    simp [broker, bare]
  rw [href.broker, Broker.stored_run, hbare, Broker.lastPosted,
    Broker.lastPosted_congr (hsame n hstats htopics), Broker.lastPosted, initially]
  by_cases h : n = versionName
  · rw [if_pos h, if_pos h.symm]
  · rw [if_neg h, if_neg (Ne.symm h)]

/-- **Delivery is exact.** After any legal history `pre` a connection is accepted as `fd`; whatever
`mid` then brings, the notifications for `n` sent on `fd` are those the connection is to hear: at every
`CS_SUBSCRIBE n` of its own the value then stored, if there is one, and every `CS_PUBLISH n` from the
first of these on, until it closes. Up to then `mid` tells what it is sent; beyond, that there is no
more before the number is used again. What is stored is taken to be `IntSized`: a topic whose message has
2^31 bytes or more ends the server when it is asked for. -/
theorem delivery_exact (listenfd : Nat) (others : FdSet) (now : Now) (pre mid : List Happening)
    (fd : Nat) (hlegal : Legal listenfd others ∅ (pre ++ .accept fd :: mid)) :
    ∃ s₁ s₂ out,
      (new listenfd others now).update ((pre ++ [Happening.accept fd]).map Happening.event) =
        (s₁, none) ∧
      s₁.update (mid.map Happening.event) = (s₂, none) ∧ s₂.sent = s₁.sent ++ out ∧
      ∀ n, n ≠ statsName → n ≠ topicsName → notifications fd n out =
        (Broker.expect fd n (Broker.lastPosted n (initially n) (requests pre)) false
          (requests mid)).map (noteOf n) := by
  have hnew := serves_new listenfd others now
  obtain ⟨hpre, haccept, hmid⟩ := legal_append.1 hlegal
  obtain ⟨s₀, ops₀, hs₀, hserves₀, href₀, hsame₀⟩ := update_refines pre hnew hpre
  have hserves₁ := hserves₀.accept haccept
  obtain ⟨s₂, ops₂, hs₂, hserves₂, href₂, hsame₂⟩ := update_refines mid hserves₁ hmid
  obtain ⟨notes, hsent, hshort, htold⟩ := href₂.sent
  refine ⟨s₀.acceptClient fd, s₂, _, ?_, hs₂, hsent, ?_⟩
  · rw [List.map_append, update_append hs₀]
    rfl
  · intro n hstats htopics
    have hstored : (s₀.acceptClient fd).broker.stored n =
        Broker.lastPosted n (initially n) (requests pre) := by
      show s₀.broker.stored n = _
      rw [href₀.broker, Broker.stored_run, stored_new hstats htopics,
        Broker.lastPosted_congr (hsame₀ n hstats htopics)]
    have hsubs : (s₀.acceptClient fd).broker.subs n fd = false := by
      have hnot : fd ∉ s₀.clients := fun hmem => haccept.2.2.1 ((hserves₀.clients fd).1 hmem)
      have hentry := (hserves₀.books.unsubscribed hnot n).1
      exact Bool.eq_false_iff.2 fun hc => hentry (ExtTreeSet.contains_iff_mem.1 hc)
    rw [notifications_frames fd n hshort, htold, Broker.heardAll_eq_expect, hstored, hsubs,
      Broker.expect_congr (hsame₂ n hstats htopics)]

def echo : List Happening :=
  [.packet 4 (.subscribe (.ofString "a") .zero (by decide)) [] 0,
    .packet 4 (.publish (.ofString "a") [.float 7] (by decide) (by decide)) [] 0]

theorem delivery_exact_echo :
    ∃ s₁ s₂ out, (new 3 ∅ 0).update [.accept 4] = (s₁, none) ∧
      s₁.update (echo.map Happening.event) = (s₂, none) ∧ s₂.sent = s₁.sent ++ out ∧
      notifications 4 (.ofString "a") out = [noteOf (.ofString "a") [.float 7]] := by
  have hfour : (4 : Nat) ∈ insert 4 (∅ : Finset Nat) := Finset.mem_insert_self 4 ∅
  have hlegal : Legal 3 ∅ ∅ ([] ++ .accept 4 :: echo) :=
    ⟨⟨by simp, by decide, by simp, by decide⟩, hfour, hfour, trivial⟩
  obtain ⟨s₁, s₂, out, hs₁, hs₂, hout, hall⟩ := delivery_exact 3 ∅ 0 [] echo 4 hlegal
  refine ⟨s₁, s₂, out, hs₁, hs₂, hout, ?_⟩
  rw [hall (.ofString "a") (by decide) (by decide)]
  rfl

end MyServer

end DiamondApparatus
