import Mathlib.Data.Fintype.EquivFin
import Mit6824.KvRaft.Server

set_option autoImplicit false

/-!
# The retries of a clerk

The loops of `Clerk.Get` and `Clerk.PutAppend` (`kvraft/client.go`): which server each attempt
contacts, and what its end does to `leaderIndex`. `PutAppend` goes on to the next server whenever
an attempt brings no reply or `ErrWrongLeader`; `Get` does so only after `ErrWrongLeader`, and
stays with a server that does not reply.

## Main definitions

* `Mit6824.KvRaft.ClerkState` — the fields of a `Clerk`; `currentLeader` and `changeLeader`.
* `Mit6824.KvRaft.Attempt` — how an attempt ends.
* `Mit6824.KvRaft.getTurn`, `Mit6824.KvRaft.putAppendTurn` — one turn of each loop.
* `Mit6824.KvRaft.ClerkState.get`, `Mit6824.KvRaft.ClerkState.putAppend` — the calls, against a
  list of ends of attempts.

## Main results

* `Mit6824.KvRaft.covers_iff_all_rotate` — a window of attempts contacts all servers just when
  each of them but the last goes on to the next server.
* `Mit6824.KvRaft.retries_cover_iff`, `Mit6824.KvRaft.get_stays_with_silent_server`.
-/

namespace Mit6824

namespace KvRaft

variable {m : ℕ}

/-! ## The clerk -/

/-- A `Clerk` of `m` servers. -/
structure ClerkState (m : ℕ) where
  leaderIndex : Fin m
  clientId : ℤ
  seqId : ℤ
deriving DecidableEq, Repr

/-- How `sendGetWithTimeOut` or `sendPutAppendWithTimeOut` ends: the time is over, the RPC has
returned false, or there is a reply. -/
inductive Attempt
  | timeOut
  | noReply
  | reply (reply : Reply)
deriving DecidableEq, Repr

/-- The attempt has brought no reply or `ErrWrongLeader`. -/
def Attempt.Unsuccessful (a : Attempt) : Prop :=
  a = .noReply ∨ ∃ value, a = .reply ⟨.errWrongLeader, value⟩

namespace ClerkState

/-- `currentLeader`. -/
def currentLeader (ck : ClerkState m) : Fin m := ck.leaderIndex

/-- `changeLeader`. -/
def changeLeader (ck : ClerkState m) : ClerkState m :=
  { ck with leaderIndex := ⟨(ck.leaderIndex + 1) % m, Nat.mod_lt _ ck.leaderIndex.pos⟩ }

/-- `atomic.AddInt64(&ck.seqId, 1)`. -/
def addSeqId (ck : ClerkState m) : ClerkState m := { ck with seqId := ck.seqId + 1 }

end ClerkState

/-! ## The two loops -/

/-- One turn of the loop of `Get`: the clerk afterwards, and the value if the call returns. -/
def getTurn (ck : ClerkState m) : Attempt → ClerkState m × Option String
  | .timeOut => (ck, none)
  | .noReply => (ck, none)
  | .reply reply =>
    match reply.err with
    | .ok => (ck, some reply.value)
    | .errNoKey => (ck, some "")
    | .errWrongLeader => (ck.changeLeader, none)

/-- One turn of the loop of `PutAppend`. -/
def putAppendTurn (ck : ClerkState m) : Attempt → ClerkState m × Option Unit
  | .timeOut => (ck, none)
  | .noReply => (ck.changeLeader, none)
  | .reply reply =>
    match reply.err with
    | .ok => (ck, some ())
    | .errWrongLeader => (ck.changeLeader, none)
    -- "unknow err"
    | .errNoKey => (ck, none)

/-- A call so far: the servers it has contacted with what it sent them, the clerk, and what the
call has returned. -/
structure Attempts (m : ℕ) (β : Type) where
  sent : List (Fin m × Op)
  clerk : ClerkState m
  result : Option β

/-- The loop of a call that sends `op`, with the given turn. -/
def retry {β : Type} (turn : ClerkState m → Attempt → ClerkState m × Option β) (op : Op) :
    ClerkState m → List Attempt → Attempts m β
  | ck, [] => ⟨[], ck, none⟩
  | ck, a :: as =>
    match turn ck a with
    | (ck', some result) => ⟨[(ck.currentLeader, op)], ck', some result⟩
    | (ck', none) =>
      let rest := retry turn op ck' as
      { rest with sent := (ck.currentLeader, op) :: rest.sent }

namespace ClerkState

/-- `Get`. -/
def get (ck : ClerkState m) (key : String) (as : List Attempt) : Attempts m String :=
  let ck := ck.addSeqId
  retry getTurn { key := key, type := .get, clientId := ck.clientId, seqId := ck.seqId } ck as

/-- `PutAppend`. -/
def putAppend (ck : ClerkState m) (key value : String) (type : OpType) (as : List Attempt) :
    Attempts m Unit :=
  let ck := ck.addSeqId
  retry putAppendTurn
    { key := key, value := value, type := type, clientId := ck.clientId, seqId := ck.seqId } ck as

end ClerkState

/-! ## What is sent -/

section Retry

variable {β : Type} {turn : ClerkState m → Attempt → ClerkState m × Option β} {op : Op}

/-- The clerk after some turns. -/
def clerkAfter (turn : ClerkState m → Attempt → ClerkState m × Option β) (ck : ClerkState m)
    (as : List Attempt) : ClerkState m :=
  as.foldl (fun ck a => (turn ck a).1) ck

/-- As long as no attempt ends the call, each one contacts the leader of the clerk as the earlier
ones have left it. -/
lemma sent_eq_map : ∀ (ck : ClerkState m) (as : List Attempt),
    (∀ a ∈ as, ∀ ck, (turn ck a).2 = none) → (retry turn op ck as).sent =
      (List.range as.length).map fun j => ((clerkAfter turn ck (as.take j)).leaderIndex, op)
  | ck, [], _ => rfl
  | ck, a :: as, h => by
    have hnone := h a List.mem_cons_self ck
    have ih := sent_eq_map (turn ck a).1 as fun b hb => h b (List.mem_cons_of_mem _ hb)
    unfold retry
    split
    · rename_i ck' result heq
      simp [heq] at hnone
    · rename_i ck' heq
      rw [heq] at ih
      rw [List.length_cons, List.range_succ_eq_map, List.map_cons, List.map_map]
      dsimp only
      rw [ih]
      refine congrArg₂ List.cons rfl (List.map_congr_left fun j _ => ?_)
      simp [clerkAfter, heq]

/-! ## Windows of attempts -/

/-- Every server is among those contacted. -/
def Covers (sent : List (Fin m × Op)) : Prop := ∀ s, ∃ p ∈ sent, p.1 = s

/-- The attempts of a window start with the clerk that the attempts before it have left. -/
lemma clerkAfter_take_add (ck : ClerkState m) (as : List Attempt) (k j : ℕ) :
    clerkAfter turn ck (as.take (k + j)) =
      clerkAfter turn (clerkAfter turn ck (as.take k)) ((as.drop k).take j) := by
  unfold clerkAfter
  rw [List.take_add, List.foldl_append]

/-- The servers of a window, as a function of the position in the window. -/
lemma covers_window_iff {ck : ClerkState m} {as : List Attempt}
    (hnone : ∀ a ∈ as, ∀ ck, (turn ck a).2 = none) {k : ℕ} (hk : k + m ≤ as.length) :
    Covers (((retry turn op ck as).sent.drop k).take m) ↔
      Function.Surjective fun j : Fin m =>
        (clerkAfter turn (clerkAfter turn ck (as.take k)) ((as.drop k).take j)).leaderIndex := by
  have hwindow : ((retry turn op ck as).sent.drop k).take m = (List.range m).map fun j =>
      ((clerkAfter turn (clerkAfter turn ck (as.take k)) ((as.drop k).take j)).leaderIndex,
        op) := by
    rw [sent_eq_map ck as hnone]
    refine List.ext_getElem (by simp; omega) fun j h1 h2 => ?_
    simp [clerkAfter_take_add]
  rw [hwindow]
  simp only [Covers, List.mem_map, List.mem_range, Function.Surjective]
  constructor
  · intro h s
    obtain ⟨p, ⟨j, hj, rfl⟩, hs⟩ := h s
    exact ⟨⟨j, hj⟩, hs⟩
  · intro h s
    obtain ⟨j, hs⟩ := h s
    exact ⟨_, ⟨j, j.isLt, rfl⟩, hs⟩

variable {rotates : Attempt → Bool}
  (hrot : ∀ ck a, (turn ck a).1 = if rotates a then ck.changeLeader else ck)

include hrot

/-- The leader index has moved on once for each attempt that rotates. -/
lemma leaderIndex_clerkAfter (as : List Attempt) : ∀ ck : ClerkState m,
    ((clerkAfter turn ck as).leaderIndex : ℕ) = (ck.leaderIndex + as.countP rotates) % m := by
  induction as with
  | nil =>
    intro ck
    exact (Nat.mod_eq_of_lt ck.leaderIndex.isLt).symm
  | cons a as ih =>
    intro ck
    show ((clerkAfter turn (turn ck a).1 as).leaderIndex : ℕ) = _
    rw [ih, hrot, List.countP_cons]
    split_ifs
    · show ((ck.leaderIndex + 1) % m + _) % m = _
      rw [Nat.mod_add_mod]
      congr 1
      omega
    · rfl

/-- When every attempt rotates, the attempts go through all servers.

**Proof sketch.** Attempt `j` contacts the server that is `j` places behind the first one, modulo
`m`; so each server is contacted at its distance from the first one. -/
lemma surjective_of_all_rotate (ck : ClerkState m) {as : List Attempt} (hlen : m ≤ as.length)
    (h : ∀ a ∈ as.take (m - 1), rotates a = true) :
    Function.Surjective fun j : Fin m => (clerkAfter turn ck (as.take j)).leaderIndex := by
  have hindex : ∀ j < m, ((clerkAfter turn ck (as.take j)).leaderIndex : ℕ) =
      (ck.leaderIndex + j) % m := by
    intro j hj
    have hcount : (as.take j).countP rotates = j := by
      rw [List.countP_eq_length.mpr, List.length_take, Nat.min_eq_left (by omega)]
      intro a ha
      exact h a (List.take_subset_take_left as (by omega) ha)
    rw [leaderIndex_clerkAfter hrot, hcount]
  intro s
  -- the distance from the first server to `s`, going up
  by_cases hle : (ck.leaderIndex : ℕ) ≤ s
  · refine ⟨⟨s - ck.leaderIndex, by omega⟩, Fin.ext ?_⟩
    rw [hindex _ (by omega), Nat.add_sub_cancel' hle, Nat.mod_eq_of_lt s.isLt]
  · have hlt := ck.leaderIndex.isLt
    refine ⟨⟨s + m - ck.leaderIndex, by omega⟩, Fin.ext ?_⟩
    rw [hindex _ (by omega), Nat.add_sub_cancel' (by omega), Nat.add_mod_right,
      Nat.mod_eq_of_lt s.isLt]

/-- An attempt that does not rotate is followed by one at the same server. -/
lemma leaderIndex_take_succ (ck : ClerkState m) {as : List Attempt} {j : ℕ} {a : Attempt}
    (ha : as[j]? = some a) (hstay : rotates a = false) :
    (clerkAfter turn ck (as.take (j + 1))).leaderIndex =
      (clerkAfter turn ck (as.take j)).leaderIndex := by
  apply Fin.ext
  rw [leaderIndex_clerkAfter hrot, leaderIndex_clerkAfter hrot, List.take_add_one, ha]
  simp [List.countP_append, hstay]

/-- **A window of attempts covers the servers just when all but the last attempt rotate.**

**Proof sketch.** If they do, the attempts contact `m` servers in a row, modulo `m`. If one of
them does not, it and the next one contact the same server, so that the servers of the window are
not distinct; as there are `m` attempts and `m` servers, one is left out. -/
theorem covers_iff_all_rotate {ck : ClerkState m} {as : List Attempt}
    (hnone : ∀ a ∈ as, ∀ ck, (turn ck a).2 = none) {k : ℕ} (hk : k + m ≤ as.length) :
    Covers (((retry turn op ck as).sent.drop k).take m) ↔
      ∀ a ∈ (as.drop k).take (m - 1), rotates a = true := by
  rw [covers_window_iff hnone hk]
  constructor
  · intro hsurj a ha
    by_contra hstay
    have hinj := Finite.injective_iff_surjective.mpr hsurj
    obtain ⟨j, hj, hget⟩ := List.mem_take_iff_getElem.mp ha
    have hjm : j + 1 < m := by omega
    have hget' : (as.drop k)[j]? = some a := List.getElem?_eq_some_iff.mpr ⟨by omega, hget⟩
    have heq := leaderIndex_take_succ hrot (clerkAfter turn ck (as.take k)) hget'
      (Bool.not_eq_true _ ▸ hstay)
    have hsame : (⟨j + 1, hjm⟩ : Fin m) = ⟨j, by omega⟩ := hinj heq
    simp at hsame
  · exact surjective_of_all_rotate hrot _ (by rw [List.length_drop]; omega)

end Retry

/-! ## `Get` and `PutAppend` -/

/-- The attempts after which `Get` goes on to the next server. -/
def Attempt.getRotates : Attempt → Bool
  | .reply r => r.err = .errWrongLeader
  | _ => false

/-- The attempts after which `PutAppend` goes on to the next server. -/
def Attempt.putAppendRotates : Attempt → Bool
  | .timeOut => false
  | .noReply => true
  | .reply r => r.err = .errWrongLeader

/-- What a turn of `Get` does to the clerk. -/
lemma getTurn_rotates (ck : ClerkState m) (a : Attempt) :
    (getTurn ck a).1 = if a.getRotates then ck.changeLeader else ck := by
  rcases a with _ | _ | ⟨err, value⟩
  · rfl
  · rfl
  · cases err <;> rfl

/-- What a turn of `PutAppend` does to the clerk. -/
lemma putAppendTurn_rotates (ck : ClerkState m) (a : Attempt) :
    (putAppendTurn ck a).1 = if a.putAppendRotates then ck.changeLeader else ck := by
  rcases a with _ | _ | ⟨err, value⟩
  · rfl
  · rfl
  · cases err <;> rfl

/-- An unsuccessful attempt ends neither call. -/
lemma Attempt.Unsuccessful.goes_on {a : Attempt} (h : a.Unsuccessful) (ck : ClerkState m) :
    (getTurn ck a).2 = none ∧ (putAppendTurn ck a).2 = none := by
  rcases h with rfl | ⟨value, rfl⟩ <;> exact ⟨rfl, rfl⟩

/-- **Which retries cover all servers.** Of the attempts of a call that bring no reply or
`ErrWrongLeader`, any `m` consecutive ones of `PutAppend` contact all `m` servers. Those of `Get`
do so just when each of them but the last has been answered.

**Proof sketch.** The server that is contacted moves on by one after an attempt that rotates, so `m`
attempts in a row cover the servers just when all of them but the last rotate
(`covers_iff_all_rotate`). `PutAppend` rotates after every such attempt, and `Get` does not without
a reply. -/
theorem retries_cover_iff (ck : ClerkState m) (key value : String) (type : OpType)
    {as : List Attempt} (has : ∀ a ∈ as, a.Unsuccessful) {k : ℕ} (hk : k + m ≤ as.length) :
    Covers (((ck.putAppend key value type as).sent.drop k).take m) ∧
    (Covers (((ck.get key as).sent.drop k).take m) ↔
      ∀ a ∈ (as.drop k).take (m - 1), a ≠ .noReply) := by
  have hmem : ∀ a ∈ (as.drop k).take (m - 1), a.Unsuccessful := fun a ha =>
    has a (List.mem_of_mem_drop (List.mem_of_mem_take ha))
  constructor
  · refine (covers_iff_all_rotate putAppendTurn_rotates
      (fun a ha ck => ((has a ha).goes_on ck).2) hk).mpr fun a ha => ?_
    rcases hmem a ha with rfl | ⟨value, rfl⟩ <;> rfl
  · refine (covers_iff_all_rotate getTurn_rotates
      (fun a ha ck => ((has a ha).goes_on ck).1) hk).trans (forall₂_congr fun a ha => ?_)
    rcases hmem a ha with rfl | ⟨value, rfl⟩
    · simp [Attempt.getRotates]
    · simp [Attempt.getRotates]

/-- A clerk of three servers that is told `ErrWrongLeader` by each of them. -/
theorem get_covers_three :
    Covers ((((⟨0, 7, 0⟩ : ClerkState 3).get "x" (List.replicate 3
      (.reply ⟨.errWrongLeader, ""⟩))).sent.drop 0).take 3) := by
  refine (retries_cover_iff (⟨0, 7, 0⟩ : ClerkState 3) "x" "" .put (k := 0) ?_ (by simp)).2.mpr ?_
  · intro a ha
    exact Or.inr ⟨"", List.eq_of_mem_replicate ha⟩
  · intro a ha
    rw [List.eq_of_mem_replicate (List.mem_of_mem_take ha)]
    simp

/-- **A silent server holds `Get` back.** Three attempts of `Get` without a reply all go to the same
one of three servers. -/
theorem get_stays_with_silent_server :
    ((⟨0, 7, 0⟩ : ClerkState 3).get "x" (List.replicate 3 .noReply)).sent.map Prod.fst =
      [0, 0, 0] ∧
    ¬ Covers ((((⟨0, 7, 0⟩ : ClerkState 3).get "x" (List.replicate 3 .noReply)).sent.drop 0).take
      3) := by
  refine ⟨by decide, fun h => ?_⟩
  obtain ⟨p, hp, hs⟩ := h 1
  revert p
  decide

end KvRaft

end Mit6824
