import Tlpi.Lib.Decimal
import Tlpi.Lib.RingAlloc
import Tlpi.Sockets.ReadLineLemmas

/-!
# The sequence-number server (`sockets/is_seqnum_sv.c`, `sockets/is_seqnum_v2_sv.c`)

Both servers run the same loop: accept a connection, read one line with `readLine`, convert it
with `atoi`, reply with the current sequence number and advance it. The sequence number is a
`uint32_t`, so the server is an allocator that counts modulo `2 ^ 32`.
-/

namespace Tlpi.SeqnumServer

open ReadLine RingAlloc

/-- The size of the string that holds the request. -/
def INT_LEN : Nat := 30

/-- `atoi` of the null-terminated string in `buf`. Bytes above 127 are neither white space nor
digits. -/
def atoi (buf : List UInt8) : Int :=
  Num.atoi ((buf.takeWhile (· ≠ 0)).map fun b => Char.ofNat b.toNat)

/-- A reply: the first number of the range, as it is and as `%d` prints it, and the number of
numbers asked for. -/
structure Grant where
  seqNum : Nat
  printed : Int
  reqLen : Nat
  deriving DecidableEq, Repr

structure Server where
  seqNum : Nat
  grants : List Grant
  deriving DecidableEq, Repr

/-- `seqNum = (argc > 1) ? getInt(argv[1], 0, "init-seq-num") : 0` -/
def initial (initSeqNum : Int) : Server := ⟨(initSeqNum % 2 ^ 32).toNat, []⟩

/-- An iteration of the server's loop; `accept` has failed or given a connection. The results of
`write` and `close` change nothing but the messages that the server prints. -/
def serve (s : Server) : Option Fd → Server
  | none => s
  | some cfd =>
    let r := (readLine cfd INT_LEN).1
    match r.ret with
    | .error _ | .ok 0 => s
    | .ok _ =>
      let reqLen := atoi r.stored
      if reqLen ≤ 0 then s
      else
        { seqNum := (s.seqNum + reqLen.toNat) % 2 ^ 32
          grants := s.grants ++ [⟨s.seqNum, wrap32 s.seqNum, reqLen.toNat⟩] }

def run (s : Server) (conns : List (Option Fd)) : Server := conns.foldl serve s

/-- The numbers of the range, as 32-bit numbers. -/
def Grant.numbers (g : Grant) : Set Nat := arc (2 ^ 32) g.seqNum g.reqLen

/-- The range `[seqNum, seqNum + reqLen)`. -/
def Grant.range (g : Grant) : Set Nat := Set.Ico g.seqNum (g.seqNum + g.reqLen)

/-- The length asked for on a connection, unless the request is refused. -/
def requested (conn : Option Fd) : Option Nat :=
  conn.bind fun cfd =>
    let r := (readLine cfd INT_LEN).1
    match r.ret with
    | .error _ | .ok 0 => none
    | .ok _ => if atoi r.stored ≤ 0 then none else some (atoi r.stored).toNat

theorem serve_requested (s : Server) (conn : Option Fd) :
    serve s conn = match requested conn with
      | none => s
      | some n => ⟨(s.seqNum + n) % 2 ^ 32, s.grants ++ [⟨s.seqNum, wrap32 s.seqNum, n⟩]⟩ := by
  cases conn with
  | none => rfl
  | some cfd =>
    simp only [serve, requested, Option.bind_some]
    split
    · rfl
    · rfl
    · split <;> rfl

theorem atoi_lt (buf : List UInt8) : atoi buf < 2 ^ 31 := by
  have hlt : atoi buf < (((2 ^ 32 : Nat) : Int) + 1) / 2 := Int.bmod_lt (by decide)
  omega

/-- A length that is granted is positive and fits an `int`. -/
theorem requested_bounds {conn : Option Fd} {n : Nat} (h : requested conn = some n) :
    0 < n ∧ n ≤ 2 ^ 32 := by
  cases conn with
  | none => cases h
  | some cfd =>
    simp only [requested, Option.bind_some] at h
    split at h
    · cases h
    · cases h
    · split at h
      · cases h
      · rename_i hpos
        cases h
        have hlt := atoi_lt (readLine cfd INT_LEN).1.stored
        omega

/-- The server is the allocator of the lengths requested. -/
theorem run_grants (s : Server) (conns : List (Option Fd)) :
    (run s conns).grants = s.grants ++
      (alloc (2 ^ 32) s.seqNum (conns.filterMap requested)).map fun b =>
        ⟨b.1, wrap32 b.1, b.2⟩ := by
  induction conns generalizing s with
  | nil => simp [run, alloc]
  | cons conn conns ih =>
    rw [run, List.foldl_cons, ← run, ih, serve_requested]
    cases hr : requested conn with
    | none => rw [List.filterMap_cons_none hr]
    | some n =>
      rw [List.filterMap_cons_some hr]
      simp [alloc]

/-- No number is handed out twice exactly when the lengths requested add up to at most `2 ^ 32`;
the ranges, read as ranges of integers, are then disjoint as well. -/
theorem grants_disjoint_iff (initSeqNum : Int) (conns : List (Option Fd)) :
    ((run (initial initSeqNum) conns).grants.Pairwise
        (fun g g' => Disjoint g.numbers g'.numbers) ↔
      (conns.filterMap requested).sum ≤ 2 ^ 32) ∧
    ((conns.filterMap requested).sum ≤ 2 ^ 32 →
      (run (initial initSeqNum) conns).grants.Pairwise fun g g' => Disjoint g.range g'.range) := by
  have hpos : ∀ n ∈ conns.filterMap requested, 0 < n ∧ n ≤ 2 ^ 32 := by
    intro n hn
    obtain ⟨conn, -, hr⟩ := List.mem_filterMap.mp hn
    exact requested_bounds hr
  rw [run_grants, initial, List.nil_append, List.pairwise_map, List.pairwise_map]
  refine ⟨pairwise_disjoint_iff hpos, fun hsum => ?_⟩
  exact (alloc_pairwise_disjoint hsum).imp ico_disjoint

/-- A connection on which `line` is sent, in one piece. -/
def connOf (line : List UInt8) : Option Fd := some [.data line]

theorem requested_connOf {line : List UInt8} (hne : line ≠ []) :
    requested (connOf line) =
      let buf := (splitLine line).1.take (INT_LEN - 1)
      if atoi buf ≤ 0 then none else some (atoi buf).toNat := by
  have hclean : Fd.Clean [.data line] := by
    intro r hr
    exact ⟨line, hne, List.mem_singleton.mp hr⟩
  obtain ⟨t, fd', hr, -, -⟩ := readLine_spec hclean (n := INT_LEN) (by decide)
  rw [Fd.bytes_cons, Fd.bytes_nil, List.append_nil] at hr
  simp only [requested, connOf, Option.bind_some, hr]
  split
  · rename_i h
    cases h
  · rename_i h
    rw [List.eq_nil_of_length_eq_zero (Except.ok.inj h)]
    rfl
  · rfl

/-- Requests for 2147483647, 2147483647, 10 and 1 numbers. -/
def wrappingRequests : List (Option Fd) :=
  [connOf [50, 49, 52, 55, 52, 56, 51, 54, 52, 55, 10],
    connOf [50, 49, 52, 55, 52, 56, 51, 54, 52, 55, 10], connOf [49, 48, 10], connOf [49, 10]]

theorem wrappingRequests_grants : (run (initial 0) wrappingRequests).grants =
    [⟨0, 0, 2147483647⟩, ⟨2147483647, 2147483647, 2147483647⟩, ⟨4294967294, -2, 10⟩,
      ⟨8, 8, 1⟩] := by
  have h₁ : requested (connOf [50, 49, 52, 55, 52, 56, 51, 54, 52, 55, 10]) = some 2147483647 :=
    (requested_connOf (by decide)).trans (by decide)
  have h₂ : requested (connOf [49, 48, 10]) = some 10 :=
    (requested_connOf (by decide)).trans (by decide)
  have h₃ : requested (connOf [49, 10]) = some 1 :=
    (requested_connOf (by decide)).trans (by decide)
  rw [run_grants, wrappingRequests]
  simp only [List.filterMap_cons, List.filterMap_nil, h₁, h₂, h₃]
  decide

/-- The counter wraps in the third request, and the fourth gets a number of the first. -/
theorem not_grants_disjoint :
    ¬ (run (initial 0) wrappingRequests).grants.Pairwise (fun g g' => Disjoint g.range g'.range) ∧
      ¬ (run (initial 0) wrappingRequests).grants.Pairwise
        (fun g g' => Disjoint g.numbers g'.numbers) := by
  rw [wrappingRequests_grants]
  have hmem : (⟨8, 8, 1⟩ : Grant) ∈ [⟨2147483647, 2147483647, 2147483647⟩,
      (⟨4294967294, -2, 10⟩ : Grant), ⟨8, 8, 1⟩] := by simp
  refine ⟨fun h => ?_, fun h => ?_⟩
  · have hdisj := Set.disjoint_left.mp ((List.pairwise_cons.mp h).1 _ hmem)
    exact hdisj (a := 8) ⟨by decide, by decide⟩ ⟨by decide, by decide⟩
  · have hdisj := Set.disjoint_left.mp ((List.pairwise_cons.mp h).1 _ hmem)
    exact hdisj (a := 8) ⟨8, by decide, rfl⟩ ⟨0, by decide, rfl⟩

end Tlpi.SeqnumServer
