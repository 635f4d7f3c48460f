import DiamondApparatus.Data.RoundTrip
import DiamondApparatus.Server.Bookkeeping

/-!
# A publication that cannot be decoded

Nothing between `fromMessage` and `main` catches the exception, so it ends `server()`.

* `readItems_error_iff` : the item loop fails at the first item that cannot be read, with the items
  before it already pushed;
* `Undecodable mem n d` : a publication of `n` on which `fromMessage` throws behind the items `d`;
* `publish_undecodable` : the server is left, with the subscriptions and the other topics as they
  were, and nobody was told about the packet.
-/

namespace DiamondApparatus
open Lib Std

/-- **Where the item loop fails**: at an item that cannot be read, behind items that can. -/
theorem readItems_error_iff {k : Nat} {acc : List Datum} {p : Bytes} {d : List Datum} {e : Fault} :
    readItems k acc p = (d, .error e) ↔ ∃ j < k, ∃ q, readItems j acc p = (d, .ok q) ∧
      readDatum q = .error e := by
  induction k generalizing acc p with
  | zero => simp [readItems]
  | succ k ih =>
    rw [readItems]
    cases hitem : readDatum p with
    | error f =>
      constructor
      · intro h
        simp only [Prod.mk.injEq, Except.error.injEq] at h
        obtain ⟨rfl, rfl⟩ := h
        exact ⟨0, by omega, p, rfl, hitem⟩
      · rintro ⟨j, -, q, hj, hq⟩
        cases j with
        | zero =>
          simp only [readItems, Prod.mk.injEq, Except.ok.injEq] at hj
          obtain ⟨rfl, rfl⟩ := hj
          rw [hitem, Except.error.injEq] at hq
          rw [hq]
        | succ j => simp [readItems, hitem] at hj
    | ok r =>
      obtain ⟨t, p'⟩ := r
      show readItems k (acc ++ [t]) p' = _ ↔ _
      rw [ih]
      constructor
      · rintro ⟨j, hj, q, hd, hq⟩
        exact ⟨j + 1, by omega, q, by rw [readItems, hitem]; exact hd, hq⟩
      · rintro ⟨j, hj, q, hd, hq⟩
        cases j with
        | zero =>
          simp only [readItems, Prod.mk.injEq, Except.ok.injEq] at hd
          rw [← hd.2, hitem] at hq
          cases hq
        | succ j =>
          rw [readItems, hitem] at hd
          exact ⟨j, by omega, q, hd, hq⟩

/-- `readDatum` throws at a type byte that is neither of the two. -/
theorem readDatum_throws {q : Bytes} {what : String} :
    readDatum q = .error (.exception what) ↔ what = "bad data in fromMessage" ∧
      ∃ t q', q = t :: q' ∧ t ≠ dtFloat ∧ t ≠ dtString := by
  cases q with
  | nil => simp [readDatum]
  | cons t q =>
    simp only [readDatum]
    by_cases hf : t = dtFloat
    · rw [if_pos hf]
      cases takeU32 q <;> simp [hf]
    rw [if_neg hf]
    by_cases hs : t = dtString
    · rw [if_pos hs]
      cases takeU32 q with
      | none => simp [hs]
      | some r =>
        dsimp only
        unfold readString
        split_ifs <;> simp [hs]
    · rw [if_neg hs]
      simp [hf, hs, eq_comm]

/-- **`fromMessage` throws** exactly where, behind items that can be read, the type byte of the next
one is neither `DT_FLOAT` nor `DT_STRING`. -/
theorem fromMessage_throws {mem : Bytes} {t : Topic} {what : String} :
    Topic.fromMessage {} mem false = (t, .error (.exception what)) ↔
      what = "bad data in fromMessage" ∧ ∃ msg count namelen p, readHeader mem = .ok (msg, count, namelen, p) ∧
        ∃ j < count.toNat, ∃ d b q, readItems j [] (p.drop namelen.toNat) = (d, .ok (b :: q)) ∧
          b ≠ dtFloat ∧ b ≠ dtString ∧ t = { d := d } := by
  unfold Topic.fromMessage
  cases hhead : readHeader mem with
  | error e =>
    have hne : e ≠ .exception what := by
      intro he
      subst he
      unfold readHeader at hhead
      repeat' split at hhead
      all_goals cases hhead
    simp [hne]
  | ok r =>
    obtain ⟨msg, count, namelen, p⟩ := r
    simp only [Bool.false_eq_true, false_and, if_false, Except.ok.injEq, Prod.mk.injEq]
    refine ⟨fun h => ?_, fun h => ?_⟩
    · obtain ⟨ht, hr⟩ := h
      have hloop : readItems count.toNat [] (p.drop namelen.toNat) =
          ((readItems count.toNat [] (p.drop namelen.toNat)).1, .error (.exception what)) := by
        refine Prod.ext rfl ?_
        cases hq : (readItems count.toNat [] (p.drop namelen.toNat)).2 with
        | error e =>
          rw [hq] at hr
          exact congrArg Except.error (Except.error.inj hr)
        | ok q => rw [hq] at hr; cases hr
      obtain ⟨j, hj, q, hd, hq⟩ := readItems_error_iff.1 hloop
      obtain ⟨hwhat, b, q', rfl, hf, hs⟩ := readDatum_throws.1 hq
      exact ⟨hwhat, msg, count, namelen, p, ⟨rfl, rfl, rfl, rfl⟩, j, hj, _, b, q', hd, hf, hs, ht.symm⟩
    · obtain ⟨hwhat, _, _, _, _, ⟨rfl, rfl, rfl, rfl⟩, j, hj, d, b, q, hd, hf, hs, rfl⟩ := h
      have hloop := readItems_error_iff.2 ⟨j, hj, b :: q, hd, readDatum_throws.2 ⟨hwhat, b, q, rfl, hf, hs⟩⟩
      rw [hloop]
      exact ⟨rfl, rfl⟩

theorem fromMessage_of_empty {mem : Bytes} {b : Bool} {d : List Datum} {r : Except Fault Loaded}
    (h : Topic.fromMessage {} mem b = ({ d := d }, r)) (t : Topic) :
    t.fromMessage mem b = ({ t with d := d }, r) := by
  rw [fromMessage_eq, h]

namespace MyServer

/-- A publication of `n` on which `fromMessage` throws: it has decoded the items `d`, and the type
byte of the next one is neither `DT_FLOAT` nor `DT_STRING`. -/
structure Undecodable (mem : Bytes) (n : CString) (d : List Datum) : Prop where
  type : ∃ msg, takeU32 mem = some (csPublish, msg)
  name : nameOfMsg mem = .ok n
  throws : Topic.fromMessage {} mem false =
    ({ d := d }, .error (.exception "bad data in fromMessage"))

theorem process_undecodable {s : MyServer} {mem : Bytes} {n : CString} {d : List Datum}
    (h : Undecodable mem n d) (size : Nat) (now : Now) :
    s.process size mem now =
      ((s.counted now).setTopic n { (s.counted now).topics.getD n {} with d := d },
        some (.exception "bad data in fromMessage")) := by
  obtain ⟨msg, hmsg⟩ := h.type
  rw [process_publish hmsg, publish_eq, h.name]
  simp only [decoded, fromMessage_of_empty h.throws]

theorem receive_undecodable {s : MyServer} (hb : Bookkeeping s) {fd : Nat} (hfd : fd ∈ s.clients)
    {pkt tail : Bytes} {n : CString} {d : List Datum} (h : Undecodable (pkt ++ tail) n d) (now : Now) :
    ∃ s' d', s.receive fd pkt tail now = (s', some (.exception "bad data in fromMessage")) ∧
      s'.sent = s.sent ++ s.notes statsName { d := d' } ∧ s'.subtopics = s.subtopics ∧
      (∀ m, s'.subscribers.entry m = s.subscribers.entry m) ∧
      (∃ t, s'.topics[n]? = some t ∧ t.d = d) ∧
      ∀ m, m ≠ statsName → m ≠ n → s'.topics[m]? = s.topics[m]? := by
  obtain ⟨c, hc, -⟩ := hb.held fd hfd
  obtain ⟨d', hd'⟩ := counted_rebuilds { s with curClient := some c } now
  obtain ⟨t, -, ht⟩ := hd'.topics
  rw [receive_eq hc, processFor, process_undecodable h]
  refine ⟨_, d', rfl, hd'.talks.sent, hd'.talks.subtopics, hd'.talks.entry,
    ⟨_, ExtTreeMap.getElem?_insert_self, rfl⟩, ?_⟩
  · intro m hstats hn
    have hcmp : ∀ k, m ≠ k → CString.cmp k m ≠ .eq := fun k hk he =>
      hk (LawfulEqCmp.eq_of_compare he).symm
    show ((counted _ now).topics.insert n _)[m]? = _
    rw [ExtTreeMap.getElem?_insert, if_neg (hcmp n hn), ht, ExtTreeMap.getElem?_insert,
      if_neg (hcmp statsName hstats)]

theorem serve_fault {s s' : MyServer} {e : Event} {f : Fault} (h : s.step e = (s', some f))
    (round : List Event) (rounds : List (List Event)) :
    s.serve ((e :: round) :: rounds) = .died s' f := by
  simp only [serve, update, h]

/-- **A publication that cannot be decoded ends the server.** The exception leaves `server()`. Both
subscription maps and every topic but 'stats' and the packet's own are as before; that one holds the
items decoded so far. Only the rebuilt 'stats' was sent. -/
theorem publish_undecodable (listenfd : Nat) (others : FdSet) (now₀ : Now) (es : List Event)
    (s : MyServer) (hreach : Run.exec advance (new listenfd others now₀) es = some s) (fd : Nat)
    (pkt tail : Bytes) (now : Now) (he : s.Enabled (.packet fd pkt tail now)) (n : CString)
    (d : List Datum) (hu : Undecodable (pkt ++ tail) n d) :
    ∃ s' stats t,
      (∀ round rounds, s.serve ((.packet fd pkt tail now :: round) :: rounds) =
        .died s' (.exception "bad data in fromMessage")) ∧
      s'.subtopics = s.subtopics ∧ (∀ m, s'.subscribers.entry m = s.subscribers.entry m) ∧
      (∀ m, m ≠ statsName → m ≠ n → s'.topics[m]? = s.topics[m]?) ∧
      s'.topics[n]? = some t ∧ t.d = d ∧
      s'.sent = s.sent ++ s.notes statsName { d := stats } := by
  have hb := bookkeeping_run hreach
  obtain ⟨s', stats, hstep, hsent, hsub, hentry, ⟨t, ht, htd⟩, hothers⟩ :=
    receive_undecodable hb ((hb.active fd).1 he) hu now
  exact ⟨s', stats, t, serve_fault hstep, hsub, hentry, hothers, ht, htd, hsent⟩

/-- A publication of 'a' with two items, a float and one of type 7. -/
def halfBad : Bytes :=
  be32 csPublish ++ be32 2 ++ [2, 97, 0] ++ [dtFloat, 1, 2, 3, 4] ++ [7]

theorem halfBad_undecodable : Undecodable halfBad (.ofString "a") [.float 0x01020304] where
  type := ⟨halfBad.drop 4, by decide⟩
  name := by decide
  throws := by decide

theorem exec_accept_four :
    Run.exec advance (new 3 ∅ 0) [.accept 4] = some ((new 3 ∅ 0).acceptClient 4) := by
  have he : (new 3 ∅ 0).Enabled (.accept 4) := by decide +kernel
  simp [Run.exec, advance, he, step]

theorem publish_undecodable_halfBad :
    ∃ s s', Run.exec advance (new 3 ∅ 0) [.accept 4] = some s ∧
      s.serve [[.packet 4 halfBad [] 0]] = .died s' (.exception "bad data in fromMessage") ∧
      ∃ t, s'.topics[CString.ofString "a"]? = some t ∧ t.d = [.float 0x01020304] := by
  have he : ((new 3 ∅ 0).acceptClient 4).Enabled (.packet 4 halfBad [] 0) := by decide +kernel
  obtain ⟨s', -, t, hserve, -, -, -, ht, htd, -⟩ := publish_undecodable 3 ∅ 0 [.accept 4] _
    exec_accept_four 4 halfBad [] 0 he (.ofString "a") [.float 0x01020304] halfBad_undecodable
  exact ⟨_, s', exec_accept_four, hserve [] [], t, ht, htd⟩

/-- `halfBad` is not rejected: the server is left, and 'a' is stored although it was not before. -/
theorem halfBad_ends_server :
    ∃ s s', Run.exec advance (new 3 ∅ 0) [.accept 4] = some s ∧
      s.Enabled (.packet 4 halfBad [] 0) ∧ Undecodable halfBad (.ofString "a") [.float 0x01020304] ∧
      s.serve [[.packet 4 halfBad [] 0]] = .died s' (.exception "bad data in fromMessage") ∧
      CString.ofString "a" ∉ s.topics ∧ CString.ofString "a" ∈ s'.topics := by
  have hfault : (((new 3 ∅ 0).acceptClient 4).step (.packet 4 halfBad [] 0)).2 =
      some (.exception "bad data in fromMessage") := by decide +kernel
  exact ⟨_, _, exec_accept_four, by decide +kernel, halfBad_undecodable,
    serve_fault (Prod.ext rfl hfault) [] [], by decide +kernel, by decide +kernel⟩

end MyServer

end DiamondApparatus
