import DiamondApparatus.Client
import DiamondApparatus.Server.Effects

/-!
# What handling a packet reads

Neither `process` is told where the packet ends, so nothing is checked against it. Here the readable
memory is the packet alone, and a read past it is the fault `outOfBounds`.

* `ItemsFit k p`, `BodyFits`, `ServerFits`, `ClientFits` : what the packet announces lies within it,
  up to where the handler stops reading;
* `readItems_stays` : the item loop stays within the memory exactly then, by induction on the count;
* `bounds_exact` : both handlers read within the packet exactly when it fits.
-/

namespace DiamondApparatus
open Lib

/-! ## Items -/

/-- `k` items lie within `p`, as far as the loop gets: it throws at an unknown type byte, and ends at a
string for which `malloc` gives null. -/
def ItemsFit : Nat → Bytes → Prop
  | 0, _ => True
  | k + 1, p => ∃ t q, p = t :: q ∧
      (t = dtFloat → ∃ f r, q = be32 f ++ r ∧ ItemsFit k r) ∧
      (t = dtString → ∃ len s r, q = be32 len ++ (s ++ r) ∧ s.length = len.toNat ∧
        len.toNat < 2 ^ 31 ∧ (len.toNat < 2 ^ 31 - 1 → ItemsFit k r))

/-- The walk did not read past the memory, and `P` holds of the cursor if it got through. -/
def Stays {α : Type} (P : α → Prop) : Except Fault α → Prop
  | .error e => e ≠ .outOfBounds
  | .ok x => P x

theorem readString_stays {len : UInt32} {p : Bytes} {P : Bytes → Prop} :
    Stays (fun x => P x.2) (readString len p) ↔ ∃ s r, p = s ++ r ∧ s.length = len.toNat ∧
      len.toNat < 2 ^ 31 ∧ (len.toNat < 2 ^ 31 - 1 → P r) := by
  constructor
  · intro h
    by_cases hout : 2 ^ 31 ≤ len.toNat ∨ p.length < len.toNat
    · rw [readString, if_pos hout] at h
      exact absurd rfl h
    · refine ⟨p.take len.toNat, p.drop len.toNat, (List.take_append_drop _ _).symm, ?_, by omega, ?_⟩
      · rw [List.length_take]
        omega
      · intro hlen
        rw [readString, if_neg hout, if_neg (by omega)] at h
        exact h
  · intro h
    obtain ⟨s, r, rfl, hs, hlen, hP⟩ := h
    rw [readString, if_neg (by rw [List.length_append]; omega)]
    by_cases hlast : len.toNat = 2 ^ 31 - 1
    · rw [if_pos hlast]
      simp [Stays]
    · rw [if_neg hlast, ← hs, List.drop_left]
      exact hP (by omega)

theorem readDatum_stays {k : Nat} {p : Bytes} :
    Stays (fun x => ItemsFit k x.2) (readDatum p) ↔ ItemsFit (k + 1) p := by
  rw [ItemsFit]
  cases p with
  | nil => simp [readDatum, Stays]
  | cons t q =>
    have hne : dtString ≠ dtFloat := by decide
    simp only [readDatum, List.cons.injEq]
    by_cases hf : t = dtFloat
    · subst hf
      rw [if_pos rfl]
      constructor
      · intro h
        refine ⟨dtFloat, q, ⟨rfl, rfl⟩, fun _ => ?_, fun hs => absurd hs.symm hne⟩
        split at h
        · exact absurd rfl h
        · next f r hword => exact ⟨f, r, takeU32_eq_some.1 hword, h⟩
      · rintro ⟨_, _, ⟨rfl, rfl⟩, h, -⟩
        obtain ⟨f, r, rfl, hr⟩ := h rfl
        rw [takeU32_be32]
        exact hr
    rw [if_neg hf]
    by_cases hs : t = dtString
    · subst hs
      rw [if_pos rfl]
      constructor
      · intro h
        refine ⟨dtString, q, ⟨rfl, rfl⟩, fun h => absurd h hne, fun _ => ?_⟩
        split at h
        · exact absurd rfl h
        · next len r hword =>
          obtain ⟨s, r', rfl, hall⟩ := readString_stays.1 h
          exact ⟨len, s, r', takeU32_eq_some.1 hword, hall⟩
      · rintro ⟨_, _, ⟨rfl, rfl⟩, -, h⟩
        obtain ⟨len, s, r, rfl, hall⟩ := h rfl
        rw [takeU32_be32]
        exact readString_stays.2 ⟨s, r, rfl, hall⟩
    · rw [if_neg hs]
      constructor
      · intro _
        exact ⟨t, q, ⟨rfl, rfl⟩, fun h => absurd h hf, fun h => absurd h hs⟩
      · intro _
        simp [Stays]

/-- **The item loop** stays within the memory exactly when the items do. -/
theorem readItems_stays (acc : List Datum) {k : Nat} {p : Bytes} :
    (readItems k acc p).2 ≠ .error .outOfBounds ↔ ItemsFit k p := by
  induction k generalizing acc p with
  | zero => simp [readItems, ItemsFit]
  | succ k ih =>
    rw [← readDatum_stays, readItems]
    cases readDatum p with
    | error e => simp [Stays]
    | ok x => exact ih _

/-! ## Packets -/

/-- The rest of a topic message behind its type: the count, the name length and a terminated name lie
within it, and so do the items where the handler goes on to read them. The items start where the name
length says, not behind the name. -/
def BodyFits (reads : CString → Prop) (rest : Bytes) : Prop :=
  ∃ count namelen name p q, rest = be32 count ++ namelen :: p ∧ p = CString.mem name ++ q ∧
    (reads name → ItemsFit count.toNat (p.drop namelen.toNat))

def ServerFits (pkt : Bytes) : Prop :=
  ∃ type rest, pkt = be32 type ++ rest ∧
    (type = csPublish → BodyFits (fun _ => True) rest) ∧ (type = csSubscribe → 0 ∈ rest)

def ClientFits (c : MyClient) (pkt : Bytes) : Prop :=
  ∃ type rest, pkt = be32 type ++ rest ∧ (type = scNotify → BodyFits (· ∈ c.topics) rest)

theorem nameOfMsg_header (type count : UInt32) (namelen : UInt8) (p : Bytes) (n : CString) :
    nameOfMsg (be32 type ++ (be32 count ++ namelen :: p)) = .ok n ↔ ∃ q, p = n.mem ++ q := by
  have hdrop : getNameFromMsg (be32 type ++ (be32 count ++ namelen :: p)) = p := by
    simp [getNameFromMsg, be32]
  rw [← CString.ofMem_eq_some, nameOfMsg, hdrop]
  cases CString.ofMem p <;> simp

theorem fromMessage_header (type count : UInt32) (namelen : UInt8) (p : Bytes) (t : Topic) :
    (t.fromMessage (be32 type ++ (be32 count ++ namelen :: p)) false).2 ≠ .error .outOfBounds ↔
      ItemsFit count.toNat (p.drop namelen.toNat) := by
  rw [← readItems_stays [], Topic.fromMessage]
  simp only [readHeader, takeU32_be32, Bool.false_eq_true, false_and, if_false]
  cases (readItems count.toNat [] (p.drop namelen.toNat)).2 <;> simp [Except.map]

theorem nameOfMsg_error {p : Bytes} {e : Fault} (h : nameOfMsg p = .error e) : e = .outOfBounds := by
  unfold nameOfMsg at h
  split at h
  · cases h
  · exact (Except.error.inj h).symm

/-- A name can be read only behind a fixed header. -/
theorem header_of_name {type : UInt32} {rest : Bytes} {n : CString}
    (h : nameOfMsg (be32 type ++ rest) = .ok n) : ∃ count namelen p, rest = be32 count ++ namelen :: p := by
  have hlong : 5 ≤ rest.length := by
    by_contra hshort
    have hdrop : getNameFromMsg (be32 type ++ rest) = [] :=
      List.drop_of_length_le (by rw [List.length_append, length_be32]; omega)
    rw [nameOfMsg, hdrop] at h
    cases h
  obtain ⟨count, p, rfl⟩ := exists_be32_append (show 4 ≤ rest.length by omega)
  rw [List.length_append, length_be32] at hlong
  cases p with
  | nil => simp at hlong
  | cons namelen p => exact ⟨count, namelen, p, rfl⟩

theorem bodyFits_iff (type : UInt32) (t : CString → Topic) {rest : Bytes} {reads : CString → Prop} :
    BodyFits reads rest ↔ ∃ n, nameOfMsg (be32 type ++ rest) = .ok n ∧
      (reads n → ((t n).fromMessage (be32 type ++ rest) false).2 ≠ .error .outOfBounds) := by
  constructor
  · rintro ⟨count, namelen, n, p, q, rfl, hp, hitems⟩
    exact ⟨n, (nameOfMsg_header ..).2 ⟨q, hp⟩, fun hn => (fromMessage_header ..).2 (hitems hn)⟩
  · rintro ⟨n, hn, hread⟩
    obtain ⟨count, namelen, p, rfl⟩ := header_of_name hn
    obtain ⟨q, hp⟩ := (nameOfMsg_header ..).1 hn
    exact ⟨count, namelen, n, p, q, rfl, hp, fun h => (fromMessage_header ..).1 (hread h)⟩

/-! ## The two handlers -/

theorem publish_within (s : MyServer) (type : UInt32) (rest : Bytes) (size : Nat) :
    (s.publish (be32 type ++ rest) size).2 ≠ some .outOfBounds ↔ BodyFits (fun _ => True) rest := by
  rw [bodyFits_iff type fun n => s.topics.getD n {}, MyServer.publish_eq]
  cases hname : nameOfMsg (be32 type ++ rest) with
  | error e => simp [nameOfMsg_error hname]
  | ok n =>
    simp only [MyServer.decoded, Except.ok.injEq, exists_eq_left', forall_const]
    cases ((s.topics.getD n {}).fromMessage (be32 type ++ rest) false).2 <;> simp

theorem be32_append_inj {v w : UInt32} {p q : Bytes} (h : be32 v ++ p = be32 w ++ q) : v = w ∧ p = q := by
  have hread : takeU32 (be32 v ++ p) = some (w, q) := takeU32_eq_some.2 h
  rw [takeU32_be32, Option.some.injEq, Prod.mk.injEq] at hread
  exact hread

theorem serverFits_be32 {type : UInt32} {rest : Bytes} : ServerFits (be32 type ++ rest) ↔
    (type = csPublish → BodyFits (fun _ => True) rest) ∧ (type = csSubscribe → 0 ∈ rest) := by
  constructor
  · rintro ⟨type', rest', he, h⟩
    obtain ⟨rfl, rfl⟩ := be32_append_inj he
    exact h
  · exact fun h => ⟨type, rest, rfl, h⟩

theorem clientFits_be32 {c : MyClient} {type : UInt32} {rest : Bytes} :
    ClientFits c (be32 type ++ rest) ↔ (type = scNotify → BodyFits (· ∈ c.topics) rest) := by
  constructor
  · rintro ⟨type', rest', he, h⟩
    obtain ⟨rfl, rfl⟩ := be32_append_inj he
    exact h
  · exact fun h => ⟨type, rest, rfl, h⟩

theorem server_within (s : MyServer) (c : ClientInServer) (pkt : Bytes) (now : Now) :
    (s.processFor c pkt [] now).2 ≠ some .outOfBounds ↔ ServerFits pkt := by
  have hne : csPublish ≠ csSubscribe := by decide
  obtain ⟨d, hd⟩ := MyServer.counted_rebuilds { s with curClient := some c } now
  have hcur : (MyServer.counted { s with curClient := some c } now).curClient = some c :=
    hd.talks.curClient
  have hcases := MyServer.process_handled { s with curClient := some c } pkt.length pkt now
  rw [MyServer.processFor, List.append_nil]
  generalize MyServer.process { s with curClient := some c } pkt.length pkt now = r at hcases ⊢
  generalize MyServer.counted { s with curClient := some c } now = s' at hcur hcases
  cases hcases with
  | short h =>
    refine iff_of_false (fun hn => hn rfl) ?_
    rintro ⟨type, rest, rfl, -⟩
    rw [takeU32_be32] at h
    cases h
  | publish msg h =>
    obtain rfl := takeU32_eq_some.1 h
    rw [serverFits_be32, publish_within]
    simp [hne]
  | outside msg e _ hnone =>
    rw [hcur] at hnone
    cases hnone
  | unterminated msg h hnone =>
    obtain rfl := takeU32_eq_some.1 h
    rw [serverFits_be32]
    simp [hne.symm, CString.ofMem_eq_none.1 hnone]
  | subscribe msg c' n h hc' hn =>
    obtain rfl := takeU32_eq_some.1 h
    obtain ⟨q, rfl⟩ := CString.ofMem_eq_some.1 hn
    obtain ⟨t, ht, -⟩ := MyServer.subscribe_talks hc' n
    rw [serverFits_be32, ht]
    simp [hne.symm, CString.mem]
  | kill msg h =>
    obtain rfl := takeU32_eq_some.1 h
    rw [serverFits_be32]
    simp [csKillserver, csPublish, csSubscribe]
  | clear msg h =>
    obtain rfl := takeU32_eq_some.1 h
    rw [serverFits_be32]
    simp [csClearserver, csPublish, csSubscribe]
  | other type msg h hp hs =>
    obtain rfl := takeU32_eq_some.1 h
    rw [serverFits_be32]
    simp [hp, hs]

theorem notify_within (c : MyClient) (type : UInt32) (rest : Bytes) (now : Clock) :
    (c.notify (be32 type ++ rest) now).2.2 ≠ some .outOfBounds ↔ BodyFits (· ∈ c.topics) rest := by
  rw [bodyFits_iff type fun n => c.heap (c.topics.getD n 0), MyClient.notify]
  cases hname : nameOfMsg (be32 type ++ rest) with
  | error e => simp [nameOfMsg_error hname]
  | ok n =>
    simp only [Except.ok.injEq, exists_eq_left']
    cases ht : c.topics[n]? with
    | none =>
      have hnot : n ∉ c.topics := by
        rw [Std.ExtTreeMap.mem_iff_isSome_getElem?, ht]
        simp
      simp [hnot]
    | some t =>
      have hmem : n ∈ c.topics := by
        rw [Std.ExtTreeMap.mem_iff_isSome_getElem?, ht]
        rfl
      have hget : c.topics.getD n 0 = t := by
        rw [Std.ExtTreeMap.getD_eq_getD_getElem?, ht]
        rfl
      rw [hget]
      dsimp only
      generalize (c.heap t).fromMessage (be32 type ++ rest) false = r
      obtain ⟨x, e | l⟩ := r
      · simp [hmem]
      · dsimp only
        split <;> simp

theorem client_within (c : MyClient) (pkt : Bytes) (now : Clock) :
    (c.process pkt now).2.2 ≠ some .outOfBounds ↔ ClientFits c pkt := by
  rw [MyClient.process]
  cases htype : takeU32 pkt with
  | none =>
    refine iff_of_false (fun hn => hn rfl) ?_
    rintro ⟨type, rest, rfl, -⟩
    rw [takeU32_be32] at htype
    cases htype
  | some r =>
    obtain ⟨type, rest⟩ := r
    obtain rfl := takeU32_eq_some.1 htype
    have hkill : scNotify ≠ scKillclient := by decide
    rw [clientFits_be32]
    dsimp only
    by_cases hn : type = scNotify
    · subst hn
      simp only [if_neg hkill, if_true, forall_const]
      exact notify_within c scNotify rest now
    · simp [hn]

/-- **What handling reads.** With the packet alone readable, either handler runs past it unless what the
packet announces fits: no packet is rejected as too short. -/
theorem bounds_exact :
    (∀ (s : MyServer) (c : ClientInServer) (pkt : Bytes) (now : Now),
      (s.processFor c pkt [] now).2 ≠ some .outOfBounds ↔ ServerFits pkt) ∧
    (∀ (c : MyClient) (pkt : Bytes) (now : Clock),
      (c.process pkt now).2.2 ≠ some .outOfBounds ↔ ClientFits c pkt) :=
  ⟨server_within, client_within⟩

/-- A publication whose name is not terminated, and one that announces more items than it has. -/
theorem bounds_overrun :
    ((MyServer.new 3 ∅ 0).processFor { fd := 4 } (be32 csPublish) [] 0).2 = some .outOfBounds ∧
      (MyClient.process { topics := (∅ : Std.ExtTreeMap CString Ref CString.cmp).insert (.ofString "a") 0 }
        (be32 scNotify ++ be32 2 ++ [2, 97, 0] ++ [dtFloat, 1, 2, 3, 4]) 0).2.2 = some .outOfBounds := by
  decide +kernel

end DiamondApparatus
