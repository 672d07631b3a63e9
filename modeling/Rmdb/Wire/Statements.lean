import Rmdb.Wire.Socket

/-!
# The protocol of NUL-terminated statements

`client_handler` of src/rmdb.cpp for a client without frames: statements end with a NUL byte, and the buffer
they are read into doubles up to 16 MiB.  A full buffer without a NUL is emptied and reading goes on, so that of
a statement of 2^24 bytes or more only what is behind its last whole block of 2^24 bytes is left (`kept`).  What
the server does depends only on the bytes that came: each statement with its NUL, in order, until the connection
ends or a client says `exit` (`statements_read`).
-/

namespace Rmdb.Wire

open Rmdb.Txn (Bytes)

def bufferLength : Nat := 8192

/-- `rbuf`: its size and the bytes received into it. -/
structure Rbuf where
  size : Nat := bufferLength
  recv : Bytes := []
deriving DecidableEq, Repr

def maxBuffer : Nat := 2 ^ 24

/-- A full buffer grows, and one of 16 MiB is emptied. -/
def makeRoom (b : Rbuf) : Rbuf :=
  if b.size ≤ b.recv.length then
    if maxBuffer ≤ b.size then { b with recv := [] } else { b with size := b.size * 2 }
  else b

/-- A call of `read` for `n` bytes; no bytes at the end of the stream and for an error. -/
def readSome (n : Nat) : Input → Bytes × Input
  | [] => ([], [])
  | .eintr :: es => ([], es)
  | .error :: es => ([], es)
  | .data bs :: es => if bs.length ≤ n then (bs, es) else (bs.take n, .data (bs.drop n) :: es)

/-- Bytes are read until there is a NUL among them, in at most `fuel` turns; `some none` when the connection has
ended. -/
def readToNul : Nat → Rbuf → Input → Option (Option (Bytes × Rbuf × Input))
  | 0, _, _ => none
  | fuel + 1, b, es =>
      if b.recv.contains 0 then
        some (some (b.recv.takeWhile (· ≠ 0), { b with recv := (b.recv.dropWhile (· ≠ 0)).tail }, es))
      else
        let b := makeRoom b
        let r := readSome (b.size - b.recv.length) es
        if r.1 = [] then some none
        else readToNul fuel { b with recv := b.recv ++ r.1 } r.2

/-- The statement begins with the lower-case word, whatever the case of its letters (`strncasecmp`). -/
def startsWith (stmt word : Bytes) : Bool :=
  (stmt.take word.length).map (fun c => if 65 ≤ c ∧ c ≤ 90 then c + 32 else c) == word

def exitWord : Bytes := [101, 120, 105, 116]
def crashWord : Bytes := [99, 114, 97, 115, 104]

/-- How the handler ends. -/
inductive NulEnd where
  | closed
  | exit
  | crash
  | writeFailed
deriving DecidableEq, Repr

section

variable {σ : Type} (runStatement : σ → Bytes → σ × Bool)

/-- The loop over statements, at most `fuel` times round; `runStatement` also says whether the reply was written. -/
def nulLoop : Nat → Rbuf → Input → σ → Option (NulEnd × σ)
  | 0, _, _, _ => none
  | fuel + 1, b, es, s =>
      (readToNul (fuel + 1) b es).bind fun r =>
        match r with
        | none => some (.closed, s)
        | some (stmt, b, es) =>
            if startsWith stmt exitWord then some (.exit, s)
            else if startsWith stmt crashWord then some (.crash, s)
            else
              let r := runStatement s stmt
              if r.2 then nulLoop fuel b es r.1 else some (.writeFailed, r.1)

/-! ## What is read -/

/-- The bytes up to the first call that gives none. -/
def received : Input → Bytes
  | .data bs :: es => if bs = [] then [] else bs ++ received es
  | _ => []

/-- What is left of a statement: the bytes behind its last whole buffer. -/
def kept (stmt : Bytes) : Bytes := stmt.drop (stmt.length / maxBuffer * maxBuffer)

/-- The statements one after another. -/
def serveStmts : List Bytes → σ → NulEnd × σ
  | [], s => (.closed, s)
  | stmt :: stmts, s =>
      if startsWith stmt exitWord then (.exit, s)
      else if startsWith stmt crashWord then (.crash, s)
      else
        let r := runStatement s stmt
        if r.2 then serveStmts stmts r.1 else (.writeFailed, r.1)

variable {runStatement}

theorem readSome_spec {n : Nat} (hn : 0 < n) (es : Input) :
    (readSome n es).1.length ≤ n ∧ ((readSome n es).1 = [] → received es = []) ∧
      ((readSome n es).1 ≠ [] → received es = (readSome n es).1 ++ received (readSome n es).2) := by
  cases es with
  | nil => exact ⟨Nat.zero_le _, fun _ => rfl, fun h => absurd rfl h⟩
  | cons ev es =>
      cases ev with
      | eintr => exact ⟨Nat.zero_le _, fun _ => rfl, fun h => absurd rfl h⟩
      | error => exact ⟨Nat.zero_le _, fun _ => rfl, fun h => absurd rfl h⟩
      | data bs =>
          have hread : readSome n (.data bs :: es) =
              if bs.length ≤ n then (bs, es) else (bs.take n, .data (bs.drop n) :: es) := rfl
          rw [hread]
          by_cases hle : bs.length ≤ n
          · rw [if_pos hle]
            exact ⟨hle, fun h => if_pos h, fun h => if_neg h⟩
          · have hbs : bs ≠ [] := fun h => hle (by rw [h]; exact Nat.zero_le n)
            have hrest : bs.drop n ≠ [] := by
              rw [ne_eq, List.drop_eq_nil_iff]
              exact hle
            rw [if_neg hle]
            refine ⟨List.length_take_le n bs, fun h => ?_, fun _ => ?_⟩
            · have hlen := congrArg List.length h
              rw [List.length_take, List.length_nil] at hlen
              omega
            · have hleft : received (.data bs :: es) = bs ++ received es := if_neg hbs
              have hright : received (.data (bs.drop n) :: es) = bs.drop n ++ received es := if_neg hrest
              rw [hleft, hright, ← List.append_assoc, List.take_append_drop]

/-- The size is a power of two, which is why the buffer is emptied at exactly 2^24 bytes. -/
structure Rbuf.Ok (b : Rbuf) : Prop where
  size : ∃ k ≤ 24, b.size = 2 ^ k
  recv : b.recv.length ≤ b.size

theorem makeRoom_cases {b : Rbuf} (h : b.Ok) :
    (b.recv.length = maxBuffer ∧ (makeRoom b).recv = [] ∧ (makeRoom b).size = maxBuffer) ∨
      ((makeRoom b).recv = b.recv ∧ (makeRoom b).recv.length < (makeRoom b).size ∧ ∃ k ≤ 24, (makeRoom b).size = 2 ^ k) := by
  obtain ⟨⟨k, hk, hsize⟩, hrecv⟩ := h
  have hle : 2 ^ k ≤ 2 ^ 24 := Nat.pow_le_pow_right (by decide) hk
  have hpos : 0 < 2 ^ k := Nat.two_pow_pos k
  unfold makeRoom maxBuffer
  by_cases hfull : b.size ≤ b.recv.length
  · rw [if_pos hfull]
    by_cases hmax : 2 ^ 24 ≤ b.size
    · rw [if_pos hmax]
      refine .inl ⟨by omega, rfl, ?_⟩
      show b.size = 2 ^ 24
      omega
    · rw [if_neg hmax]
      have hk24 : k < 24 := by
        by_contra hge
        obtain rfl : k = 24 := by omega
        exact hmax hsize.ge
      refine .inr ⟨rfl, ?_, k + 1, hk24, ?_⟩
      · show b.recv.length < b.size * 2
        omega
      · show b.size * 2 = 2 ^ (k + 1)
        rw [hsize, Nat.pow_succ]
  · rw [if_neg hfull]
    exact .inr ⟨rfl, not_le.1 hfull, k, hk, hsize⟩

theorem split_at_nul {recv more p rest : Bytes} (h : recv ++ more = p ++ 0 :: rest) (hp : p.contains 0 = false)
    (hnul : recv.contains 0 = true) :
    recv.takeWhile (· ≠ 0) = p ∧ (recv.dropWhile (· ≠ 0)).tail ++ more = rest ∧ p.length < recv.length := by
  have hpfree : ∀ x ∈ p, (decide (x ≠ 0)) = true := by
    intro x hx
    rw [decide_eq_true_iff]
    rintro rfl
    have hc := List.contains_iff_mem.2 hx
    rw [hp] at hc
    cases hc
  have hlt : p.length < recv.length := by
    by_contra hge
    have hpre : recv <+: p := List.prefix_of_prefix_length_le ⟨more, h⟩ (List.prefix_append _ _) (not_lt.1 hge)
    have hmem : (0 : UInt8) ∈ p := hpre.subset (List.contains_iff_mem.1 hnul)
    have hc := List.contains_iff_mem.2 hmem
    rw [hp] at hc
    cases hc
  obtain ⟨r, hr⟩ : p ++ [0] <+: recv := by
    have hfront : p ++ [0] <+: recv ++ more := ⟨rest, by rw [h, List.append_assoc]; rfl⟩
    refine List.prefix_of_prefix_length_le hfront (List.prefix_append _ _) ?_
    rw [List.length_append]
    exact hlt
  subst hr
  refine ⟨?_, ?_, hlt⟩
  · rw [List.append_assoc, List.takeWhile_append_of_pos hpfree]
    simp
  · rw [List.append_assoc, List.dropWhile_append_of_pos hpfree]
    rw [List.append_assoc, List.append_assoc] at h
    have htail := List.append_cancel_left h
    simpa using htail

theorem kept_append {blocks p : Bytes} (hblocks : maxBuffer ∣ blocks.length) (hp : p.length < maxBuffer) : kept (blocks ++ p) = p := by
  obtain ⟨q, hq⟩ := hblocks
  have hdiv : (blocks ++ p).length / maxBuffer * maxBuffer = blocks.length := by
    rw [List.length_append, hq, Nat.mul_add_div (by decide), Nat.div_eq_of_lt hp, Nat.add_zero, Nat.mul_comm]
  unfold kept
  rw [hdiv, List.drop_left]

/-- One turn without a NUL in the buffer: either the stream has ended, or bytes are appended, to what the buffer
held or, when 16 MiB were full, to an empty one. -/
theorem readToNul_turn {b : Rbuf} (es : Input) (fuel : Nat) (hb : b.Ok) (hnul : b.recv.contains 0 = false) :
    (received es = [] ∧ readToNul (fuel + 1) b es = some none) ∨
      ∃ b1 es1, readToNul (fuel + 1) b es = readToNul fuel b1 es1 ∧ b1.Ok ∧ (received es1).length < (received es).length ∧
        (b1.recv ++ received es1 = b.recv ++ received es ∨
          b.recv.length = maxBuffer ∧ b1.recv ++ received es1 = received es) := by
  have hroom : (makeRoom b).recv.length < (makeRoom b).size ∧ (∃ k ≤ 24, (makeRoom b).size = 2 ^ k) ∧
      ((makeRoom b).recv = b.recv ∨ b.recv.length = maxBuffer ∧ (makeRoom b).recv = []) := by
    rcases makeRoom_cases hb with ⟨hfull, hempty, hsize⟩ | ⟨hsame, hless, hpow⟩
    · refine ⟨?_, ⟨24, le_rfl, hsize⟩, .inr ⟨hfull, hempty⟩⟩
      rw [hempty, hsize]
      decide
    · exact ⟨hless, hpow, .inl hsame⟩
  obtain ⟨hless, hpow, hkept⟩ := hroom
  have hturn : readToNul (fuel + 1) b es =
      if (readSome ((makeRoom b).size - (makeRoom b).recv.length) es).1 = [] then some none
      else readToNul fuel
        { makeRoom b with recv := (makeRoom b).recv ++ (readSome ((makeRoom b).size - (makeRoom b).recv.length) es).1 }
        (readSome ((makeRoom b).size - (makeRoom b).recv.length) es).2 := by
    rw [readToNul, if_neg (by rw [hnul]; exact Bool.false_ne_true)]
  rw [hturn]
  obtain ⟨hlen, hnone, hsome⟩ := readSome_spec (n := (makeRoom b).size - (makeRoom b).recv.length) (by omega) es
  generalize readSome ((makeRoom b).size - (makeRoom b).recv.length) es = r at hlen hnone hsome ⊢
  by_cases hread : r.1 = []
  · rw [if_pos hread]
    exact .inl ⟨hnone hread, rfl⟩
  · rw [if_neg hread]
    have hbytes := hsome hread
    have hpos := List.length_pos_iff.2 hread
    refine .inr ⟨_, _, rfl, ⟨hpow, ?_⟩, ?_, ?_⟩
    · rw [List.length_append]
      show (makeRoom b).recv.length + r.1.length ≤ (makeRoom b).size
      omega
    · rw [hbytes, List.length_append]
      omega
    · rw [List.append_assoc, ← hbytes]
      rcases hkept with hsame | ⟨hfull, hempty⟩
      · rw [hsame]
        exact .inl rfl
      · rw [hempty]
        exact .inr ⟨hfull, rfl⟩

theorem contains_false_of_subset {xs ys : Bytes} (hys : ys.contains 0 = false) (h : ∀ x ∈ xs, x ∈ ys) : xs.contains 0 = false := by
  rw [← Bool.not_eq_true] at hys ⊢
  intro hxs
  exact hys (List.contains_iff_mem.2 (h 0 (List.contains_iff_mem.1 hxs)))

/-- Bytes without a NUL at the front of a statement with its NUL are the front of the statement. -/
theorem prefix_of_nul_free {recv more p rest : Bytes} (h : recv ++ more = p ++ 0 :: rest) (hnul : recv.contains 0 = false) :
    ∃ p2, p = recv ++ p2 ∧ more = p2 ++ 0 :: rest := by
  have hpre : recv <+: p ++ 0 :: rest := ⟨more, h⟩
  have hshort : recv.length ≤ p.length := by
    by_contra hlong
    have hfront : p ++ [0] <+: p ++ 0 :: rest := ⟨rest, by rw [List.append_assoc]; rfl⟩
    have hpn : p ++ [0] <+: recv := by
      refine List.prefix_of_prefix_length_le hfront hpre ?_
      rw [List.length_append]
      exact not_le.1 hlong
    have hmem : (0 : UInt8) ∈ recv := hpn.subset (List.mem_append_right _ List.mem_cons_self)
    have hc := List.contains_iff_mem.2 hmem
    rw [hnul] at hc
    cases hc
  obtain ⟨p2, rfl⟩ := List.prefix_of_prefix_length_le hpre (List.prefix_append _ _) hshort
  rw [List.append_assoc] at h
  exact ⟨p2, rfl, List.append_cancel_left h⟩

/-- With the whole buffers `blocks` emptied, and `p` before the next NUL. -/
theorem readToNul_stmt {rest : Bytes} : ∀ (fuel : Nat) (b : Rbuf) (es : Input) (blocks p : Bytes), b.Ok → maxBuffer ∣ blocks.length →
    p.contains 0 = false → b.recv ++ received es = p ++ 0 :: rest → (received es).length < fuel →
      ∃ b' es', readToNul fuel b es = some (some (kept (blocks ++ p), b', es')) ∧ b'.Ok ∧ b'.recv ++ received es' = rest ∧
        (received es').length ≤ (received es).length := by
  intro fuel
  induction fuel with
  | zero => intro b es blocks p _ _ _ _ hfuel; omega
  | succ fuel ih =>
      intro b es blocks p hb hblocks hp hstream hfuel
      cases hnul : b.recv.contains 0 with
      | true =>
          obtain ⟨htake, hdrop, hlt⟩ := split_at_nul hstream hp hnul
          obtain ⟨⟨k, hk, hsize⟩, hrecv⟩ := hb
          have hle : 2 ^ k ≤ 2 ^ 24 := Nat.pow_le_pow_right (by decide) hk
          rw [readToNul, if_pos hnul, htake, kept_append hblocks (by unfold maxBuffer; omega)]
          refine ⟨_, es, rfl, ⟨⟨k, hk, hsize⟩, ?_⟩, hdrop, le_rfl⟩
          have hshort := congrArg List.length hdrop
          have hall := congrArg List.length hstream
          rw [List.length_append] at hshort hall
          rw [List.length_append, List.length_cons] at hall
          show ((b.recv.dropWhile _).tail).length ≤ b.size
          omega
      | false =>
          obtain ⟨p2, rfl, hmore⟩ := prefix_of_nul_free hstream hnul
          rcases readToNul_turn es fuel hb hnul with ⟨hend, -⟩ | ⟨b1, es1, hturn, hb1, hless, happ | ⟨hfull, hemptied⟩⟩
          · rw [hend] at hmore
            exact absurd hmore.symm (List.append_ne_nil_of_right_ne_nil _ (List.cons_ne_nil _ _))
          · obtain ⟨b', es', hstmt, hb', hrest, hle⟩ := ih b1 es1 blocks (b.recv ++ p2) hb1 hblocks hp (happ.trans hstream) (by omega)
            rw [hturn]
            exact ⟨b', es', hstmt, hb', hrest, by omega⟩
          · -- the bytes of the emptied buffer are one more block
            have hp2 : p2.contains 0 = false := contains_false_of_subset hp fun x hx => List.mem_append_right _ hx
            have hblocks1 : maxBuffer ∣ (blocks ++ b.recv).length := by
              rw [List.length_append, hfull]
              exact Nat.dvd_add hblocks (dvd_refl _)
            obtain ⟨b', es', hstmt, hb', hrest, hle⟩ := ih b1 es1 (blocks ++ b.recv) p2 hb1 hblocks1 hp2 (hemptied.trans hmore) (by omega)
            rw [List.append_assoc] at hstmt
            rw [hturn]
            exact ⟨b', es', hstmt, hb', hrest, by omega⟩

theorem readToNul_closed : ∀ (fuel : Nat) (b : Rbuf) (es : Input), b.Ok → (b.recv ++ received es).contains 0 = false →
    (received es).length < fuel → readToNul fuel b es = some none := by
  intro fuel
  induction fuel with
  | zero => intro b es _ _ hfuel; omega
  | succ fuel ih =>
      intro b es hb hstream hfuel
      have hnul : b.recv.contains 0 = false := contains_false_of_subset hstream fun x hx => List.mem_append_left _ hx
      rcases readToNul_turn es fuel hb hnul with ⟨-, hend⟩ | ⟨b1, es1, hturn, hb1, hless, happ | ⟨-, hemptied⟩⟩
      · exact hend
      · rw [hturn]
        exact ih b1 es1 hb1 (by rw [happ]; exact hstream) (by omega)
      · rw [hturn]
        refine ih b1 es1 hb1 ?_ (by omega)
        rw [hemptied]
        exact contains_false_of_subset hstream fun x hx => List.mem_append_right _ hx

/-- Statements with their NULs, and bytes without one behind them. -/
def stmtBytes (stmts : List Bytes) (tail : Bytes) : Bytes := stmts.flatMap (fun stmt => stmt ++ [0]) ++ tail

theorem nulLoop_eq {tail : Bytes} (htail : tail.contains 0 = false) : ∀ (stmts : List Bytes) (fuel : Nat) (b : Rbuf) (es : Input) (s : σ),
    b.Ok → (∀ stmt ∈ stmts, stmt.contains 0 = false) → b.recv ++ received es = stmtBytes stmts tail →
      (received es).length + stmts.length < fuel →
        nulLoop runStatement fuel b es s = some (serveStmts runStatement (stmts.map kept) s) := by
  intro stmts
  induction stmts with
  | nil =>
      intro fuel b es s hb _ hstream hfuel
      obtain ⟨fuel, rfl⟩ : ∃ n, fuel = n + 1 := ⟨fuel - 1, by omega⟩
      have hend : readToNul (fuel + 1) b es = some none :=
        readToNul_closed (fuel + 1) b es hb (by rw [hstream]; exact htail) (by omega)
      rw [nulLoop, hend, Option.bind_some]
      rfl
  | cons stmt stmts ih =>
      intro fuel b es s hb hstmts hstream hfuel
      obtain ⟨fuel, rfl⟩ : ∃ n, fuel = n + 1 := ⟨fuel - 1, by omega⟩
      rw [List.length_cons] at hfuel
      have hsplit : b.recv ++ received es = stmt ++ 0 :: stmtBytes stmts tail := by
        rw [hstream]
        simp [stmtBytes]
      obtain ⟨b', es', hread, hb', hrest, hle⟩ :=
        readToNul_stmt (fuel + 1) b es [] stmt hb (dvd_zero _) (hstmts stmt List.mem_cons_self) hsplit (by omega)
      rw [List.nil_append] at hread
      rw [nulLoop, hread, List.map_cons, serveStmts, Option.bind_some]
      dsimp only
      by_cases hexit : startsWith (kept stmt) exitWord = true
      · rw [if_pos hexit, if_pos hexit]
      · by_cases hcrash : startsWith (kept stmt) crashWord = true
        · rw [if_neg hexit, if_pos hcrash, if_neg hexit, if_pos hcrash]
        · rw [if_neg hexit, if_neg hcrash, if_neg hexit, if_neg hcrash]
          by_cases hsent : (runStatement s (kept stmt)).2 = true
          · simp only [hsent, if_true]
            exact ih fuel b' es' _ hb' (fun q hq => hstmts q (List.mem_cons_of_mem _ hq)) hrest (by omega)
          · simp only [hsent, Bool.false_eq_true, if_false]

theorem length_le_stmtBytes (tail : Bytes) : ∀ stmts : List Bytes, stmts.length ≤ (stmtBytes stmts tail).length
  | [] => Nat.zero_le _
  | stmt :: stmts => by
      have ih := length_le_stmtBytes tail stmts
      have hcons : stmtBytes (stmt :: stmts) tail = stmt ++ 0 :: stmtBytes stmts tail := by simp [stmtBytes]
      rw [hcons, List.length_append, List.length_cons, List.length_cons]
      omega

theorem kept_of_lt {stmt : Bytes} (h : stmt.length < maxBuffer) : kept stmt = stmt := by
  unfold kept
  rw [Nat.div_eq_of_lt h, Nat.zero_mul, List.drop_zero]

variable (runStatement) in
/-- However the bytes come, and whatever comes behind the last statement without a NUL: every statement is run
once, in order, as long as the replies are written, and those below 16 MiB whole. -/
theorem statements_read {stmts : List Bytes} {tail : Bytes} {es : Input} {fuel : Nat} (s : σ)
    (hstmts : ∀ stmt ∈ stmts, stmt.contains 0 = false) (htail : tail.contains 0 = false) (hes : received es = stmtBytes stmts tail)
    (hfuel : 2 * (received es).length < fuel) :
    nulLoop runStatement fuel {} es s = some (serveStmts runStatement (stmts.map kept) s) ∧
      ∀ stmt ∈ stmts, stmt.length < maxBuffer → kept stmt = stmt := by
  have hcount := length_le_stmtBytes tail stmts
  rw [← hes] at hcount
  have hempty : Rbuf.Ok {} := ⟨⟨13, by decide, rfl⟩, Nat.zero_le _⟩
  exact ⟨nulLoop_eq htail stmts fuel {} es s hempty hstmts hes (by omega), fun _ _ hshort => kept_of_lt hshort⟩

/-- `sel;` and `Exit`, both cut, with a byte behind: the first is run and the second ends the loop. -/
theorem statements_read_cut :
    nulLoop (fun (n : Nat) stmt => (n + stmt.length, true)) 50 {}
        [.data [115, 101], .data [108, 59, 0, 69, 120], .data [105, 116, 0, 7]] 0 = some (.exit, 4) ∧
      kept [115, 101, 108, 59] = [115, 101, 108, 59] := by
  have hstmts : ∀ stmt ∈ ([[115, 101, 108, 59], [69, 120, 105, 116]] : List Bytes), stmt.contains 0 = false := by decide
  have htail : ([7] : Bytes).contains 0 = false := by decide
  have hes : received [.data [115, 101], .data [108, 59, 0, 69, 120], .data [105, 116, 0, 7]] =
      stmtBytes [[115, 101, 108, 59], [69, 120, 105, 116]] [7] := by decide
  have hfuel : 2 * (received [.data [115, 101], .data [108, 59, 0, 69, 120], .data [105, 116, 0, 7]]).length < 50 := by decide
  obtain ⟨hrun, hkept⟩ := statements_read (fun (n : Nat) stmt => (n + stmt.length, true)) 0 hstmts htail hes hfuel
  exact ⟨hrun.trans (by decide), hkept _ List.mem_cons_self (by decide)⟩

end

end Rmdb.Wire
