import Rmdb.Wire.Request

/-!
# What the handlers accept

A PREPARE_SET is decoded if and only if it is the text of statements (`decodePrepareSet_eq_iff`), whatever its
result kinds and its type tags.  An EXEC_BATCH that is the text of operations without quotes runs
their statements in order (`handleExecBatch_complete`), and one whose operations were all executed
begins with such a text (`handleExecBatch_sound`): what is left over is not looked at.
-/

namespace Rmdb.Wire

open Rmdb.Lib (Format Exact Refuses exact_pure exact_throw)
open Rmdb.Txn (Bytes ColType)

/-! ## Decoding a PREPARE_SET -/

theorem at_payload {payload : Bytes} (h : payload.length < 2 ^ 63) : At { data := payload } payload :=
  ⟨h, Nat.zero_le _, rfl⟩

theorem each_bytes {as : List Nat} : ∀ {bs t : Bytes},
    Format.each (fun (_ : Nat) (v : UInt8) t => t = [v]) as bs t ↔ bs.length = as.length ∧ t = bs := by
  induction as with
  | nil =>
      intro bs t
      show bs = [] ∧ t = [] ↔ _
      constructor
      · rintro ⟨rfl, rfl⟩
        exact ⟨rfl, rfl⟩
      · rintro ⟨hlen, rfl⟩
        exact ⟨List.length_eq_zero_iff.1 hlen, List.length_eq_zero_iff.1 hlen⟩
  | cons a as ih =>
      intro bs t
      constructor
      · rintro ⟨b, bs', t1, t2, rfl, rfl, rfl, hrest⟩
        obtain ⟨hlen, rfl⟩ := ih.1 hrest
        exact ⟨congrArg (· + 1) hlen, rfl⟩
      · rintro ⟨hlen, rfl⟩
        cases t with
        | nil => cases hlen
        | cons b bs => exact ⟨b, bs, [b], bs, rfl, rfl, rfl, ih.2 ⟨Nat.succ.inj hlen, rfl⟩⟩

theorem exact_readTags (n : Nat) : Exact At Bad ((List.range n).mapM fun _ => Read.u8) fun bs t => bs.length = n ∧ t = bs :=
  (Exact.mapM fun _ _ => exact_u8).congr fun bs t => by rw [each_bytes, List.length_range]

theorem exact_readStmt (fresh : Prepared) : Exact At Bad (readStmt fresh) fun entry t =>
    ∃ st : Statement, st.Ok ∧ st.id ∉ fresh.map Prod.fst ∧ entry = st.prepared ∧ t = st.encode := by
  refine (exact_u16.bind fun id _ hid => Exact.unless Fault.noConfusion fun _ => Exact.unless Fault.noConfusion fun _ =>
    exact_u8.bind fun resultKind _ _ => exact_u16.bind fun paramCount _ hcount => (exact_readTags paramCount).bind
      fun paramTypes _ _ => exact_u32.bind fun sqlBytes _ hbytes => (exact_bytes (by have := hbytes.1; omega)).bind
        fun sql _ _ => exact_pure (id, ({ sqlTemplate := sql, paramTypes, isQuery := decide (resultKind = 1) } :
          WirePreparedStmt))).congr fun entry t => ?_
  constructor
  · rintro ⟨id, t1, u1, rfl, ⟨hid, rfl⟩, hzero, hdup, resultKind, t2, u2, rfl, rfl, paramCount, t3, u3, rfl, ⟨hcount, rfl⟩,
      paramTypes, t4, u4, rfl, ⟨rfl, rfl⟩, sqlBytes, t5, u5, rfl, ⟨hsql, rfl⟩, sql, t6, u6, rfl, ⟨rfl, rfl⟩, rfl, rfl⟩
    refine ⟨⟨id, resultKind, t4, t6⟩, ⟨hzero, hid, hcount, hsql⟩, hdup, rfl, ?_⟩
    rw [List.append_nil]
    rfl
  · rintro ⟨⟨id, resultKind, paramTypes, sql⟩, hok, hdup, rfl, rfl⟩
    exact ⟨id, _, _, rfl, ⟨hok.id, rfl⟩, hok.nonzero, hdup, resultKind, [resultKind], _, rfl, rfl, paramTypes.length, _, _, rfl,
      ⟨hok.paramTypes, rfl⟩, paramTypes, paramTypes, _, rfl, ⟨rfl, rfl⟩, sql.length, _, _, rfl, ⟨hok.sql, rfl⟩, sql, sql, [],
      (List.append_nil sql).symm, ⟨rfl, rfl⟩, rfl, rfl⟩

theorem exact_readStmts (n : Nat) (fresh : Prepared) : Exact At Bad (readStmts n fresh) fun entries t =>
    ∃ stmts : List Statement, stmts.length = n ∧ (∀ st ∈ stmts, st.Ok) ∧ (stmts.map Statement.id).Nodup ∧
      (∀ st ∈ stmts, st.id ∉ fresh.map Prod.fst) ∧ entries = fresh ++ stmts.map Statement.prepared ∧
      t = stmts.flatMap Statement.encode := by
  induction n generalizing fresh with
  | zero =>
      refine (exact_pure fresh).congr fun entries t => ?_
      constructor
      · rintro ⟨rfl, rfl⟩
        exact ⟨[], rfl, by simp, List.nodup_nil, by simp, (List.append_nil _).symm, rfl⟩
      · rintro ⟨stmts, hlen, -, -, -, rfl, rfl⟩
        obtain rfl := List.length_eq_zero_iff.1 hlen
        exact ⟨List.append_nil fresh, rfl⟩
  | succ n ih =>
      refine ((exact_readStmt fresh).bind fun entry _ _ => ih (fresh ++ [entry])).congr fun entries t => ?_
      constructor
      · rintro ⟨_, _, _, rfl, ⟨st, hok, hnew, rfl, rfl⟩, stmts, rfl, hoks, hnodup, hnews, rfl, rfl⟩
        have hnews' : ∀ st' ∈ stmts, st'.id ∉ fresh.map Prod.fst ∧ st'.id ≠ st.id := by
          intro st' hst'
          have hnot := hnews st' hst'
          rw [List.map_append, List.mem_append, not_or] at hnot
          exact ⟨hnot.1, fun heq => hnot.2 (List.mem_singleton.2 heq)⟩
        refine ⟨st :: stmts, rfl, ?_, ?_, ?_, ?_, rfl⟩
        · intro st' hst'
          rcases List.mem_cons.1 hst' with rfl | hst'
          · exact hok
          · exact hoks st' hst'
        · rw [List.map_cons, List.nodup_cons]
          refine ⟨fun hmem => ?_, hnodup⟩
          obtain ⟨st', hst', heq⟩ := List.mem_map.1 hmem
          exact (hnews' st' hst').2 heq
        · intro st' hst'
          rcases List.mem_cons.1 hst' with rfl | hst'
          · exact hnew
          · exact (hnews' st' hst').1
        · rw [List.append_assoc]
          rfl
      · rintro ⟨stmts, hlen, hoks, hnodup, hnews, rfl, rfl⟩
        cases stmts with
        | nil => cases hlen
        | cons st stmts =>
            rw [List.map_cons, List.nodup_cons] at hnodup
            refine ⟨st.prepared, st.encode, stmts.flatMap Statement.encode, rfl,
              ⟨st, hoks st List.mem_cons_self, hnews st List.mem_cons_self, rfl, rfl⟩, stmts, Nat.succ.inj hlen,
              fun st' hst' => hoks st' (List.mem_cons_of_mem _ hst'), hnodup.2, fun st' hst' => ?_, ?_, rfl⟩
            · rw [List.map_append, List.mem_append, not_or]
              refine ⟨hnews st' (List.mem_cons_of_mem _ hst'), fun hmem => hnodup.1 ?_⟩
              have heq : st'.id = st.id := List.mem_singleton.1 hmem
              rw [← heq]
              exact List.mem_map_of_mem hst'
            · rw [List.append_assoc]
              rfl

theorem exact_readPrepareSet : Exact At Bad readPrepareSet fun fresh t =>
    ∃ stmts, PrepareSet stmts ∧ fresh = stmts.map Statement.prepared ∧ t = encodePrepareSet stmts := by
  refine (exact_u16.bind fun n _ _ => Exact.unless Fault.noConfusion fun _ => exact_readStmts n []).congr fun fresh t => ?_
  constructor
  · rintro ⟨_, _, _, rfl, ⟨hn, rfl⟩, hcount, stmts, rfl, hok, hnodup, -, rfl, rfl⟩
    exact ⟨stmts, ⟨by omega, hok, hnodup⟩, rfl, rfl⟩
  · rintro ⟨stmts, hset, rfl, rfl⟩
    have hcount := hset.count
    exact ⟨stmts.length, _, _, rfl, ⟨by omega, rfl⟩, by omega, stmts, rfl, hset.ok, hset.nodup, fun st _ h => (List.not_mem_nil h).elim,
      rfl, rfl⟩

theorem decodePrepareSet_eq_iff {payload : Bytes} (h : payload.length < 2 ^ 63) {fresh : Prepared} :
    decodePrepareSet payload = .ok fresh ↔
      ∃ stmts, PrepareSet stmts ∧ fresh = stmts.map Statement.prepared ∧ payload = encodePrepareSet stmts := by
  have hat := at_payload h
  unfold decodePrepareSet
  constructor
  · intro hrun
    cases hread : readPrepareSet { data := payload } with
    | error e =>
        rw [hread] at hrun
        cases hrun
    | ok p =>
        rw [hread] at hrun
        obtain ⟨t, rest, rfl, ⟨stmts, hset, hfresh, rfl⟩, hend⟩ := exact_readPrepareSet.sound _ _ p.1 p.2 hat hread
        have hlen := hend.length
        dsimp only at hrun
        split at hrun
        · next hpos =>
            cases hrun
            have hrest : rest = [] := List.length_eq_zero_iff.1 (by omega)
            rw [hrest, List.append_nil]
            exact ⟨stmts, hset, hfresh, rfl⟩
        · cases hrun
  · rintro ⟨stmts, hset, rfl, rfl⟩
    rw [← List.append_nil (encodePrepareSet stmts)] at hat
    obtain ⟨r, hread, hend⟩ := exact_readPrepareSet.complete _ _ _ [] hat ⟨stmts, hset, rfl, rfl⟩
    rw [List.append_nil] at hread
    rw [hread]
    exact if_pos hend.length

theorem decodePrepareSet_ne_overrun {payload : Bytes} (h : payload.length < 2 ^ 63) :
    decodePrepareSet payload ≠ .error .overrun := by
  unfold decodePrepareSet
  intro hrun
  cases hread : readPrepareSet { data := payload } with
  | error e =>
      rw [hread] at hrun
      exact exact_readPrepareSet.safe _ _ e (at_payload h) hread (Except.error.inj hrun)
  | ok p =>
      rw [hread] at hrun
      dsimp only at hrun
      split at hrun
      · cases hrun
      · cases hrun

/-- A request that fails leaves the dictionary as it is. -/
theorem handlePrepareSet_error {probe : Bytes → Bool → Except String (List (Bytes × ColType))} {payload : Bytes}
    {prepared prepared' : Prepared} {msg : String}
    (h : handlePrepareSet probe payload prepared = .ok (.error msg, prepared')) : prepared' = prepared := by
  unfold handlePrepareSet at h
  cases hdecode : decodePrepareSet payload with
  | error e =>
      rw [hdecode] at h
      cases h
  | ok fresh =>
      rw [hdecode] at h
      dsimp only at h
      split at h
      · cases h
      · cases h
        rfl

/-! ## Decoding an EXEC_BATCH -/

theorem each_params {g9 : BitVec 32 → Bytes} {types : List UInt8} : ∀ {literals : List Bytes} {t : Bytes},
    Format.each (paramFormat g9) types literals t ↔ ∃ params : List Param, List.Forall₂ Param.Fits types params ∧
      (∀ p ∈ params, p.NoQuote) ∧ literals = List.zipWith (Param.literal g9) types params ∧ t = params.flatMap Param.encode := by
  induction types with
  | nil =>
      intro literals t
      constructor
      · rintro ⟨rfl, rfl⟩
        exact ⟨[], .nil, by simp, rfl, rfl⟩
      · rintro ⟨params, hfits, -, rfl, rfl⟩
        cases hfits
        exact ⟨rfl, rfl⟩
  | cons type types ih =>
      intro literals t
      constructor
      · rintro ⟨_, _, _, _, rfl, rfl, ⟨p, hp, hquote, rfl, rfl⟩, hrest⟩
        obtain ⟨params, hparams, hquotes, rfl, rfl⟩ := ih.1 hrest
        refine ⟨p :: params, .cons hp hparams, fun p' hp' => ?_, rfl, rfl⟩
        rcases List.mem_cons.1 hp' with rfl | hp'
        · exact hquote
        · exact hquotes p' hp'
      · rintro ⟨params, hfits, hquotes, rfl, rfl⟩
        cases hfits with
        | cons hp hparams =>
            exact ⟨_, _, _, _, rfl, rfl, ⟨_, hp, hquotes _ List.mem_cons_self, rfl, rfl⟩,
              ih.2 ⟨_, hparams, fun p' hp' => hquotes p' (List.mem_cons_of_mem _ hp'), rfl, rfl⟩⟩

section

variable {σ : Type} {g9 : BitVec 32 → Bytes} {runSqlStatement : σ → Bytes → Bool → SqlRun × σ} {autoAbort : σ → σ}
  {prepared : Prepared}

theorem exact_readOp : Exact At Bad (readOp g9 prepared) fun stmt t => ∃ op : Operation,
    op.Ok prepared stmt.1 ∧ op.NoQuote ∧ stmt.2 = op.literals g9 stmt.1 ∧ t = op.encode := by
  unfold readOp
  refine (exact_u16.bind (G := fun stmtId stmt t => prepared.lookup stmtId = some stmt.1 ∧
    Format.each (paramFormat g9) stmt.1.paramTypes stmt.2 t) fun stmtId _ _ => ?_).congr fun stmt t => ?_
  · cases hst : prepared.lookup stmtId with
    | none => exact (exact_throw Fault.noConfusion).congr fun stmt t => ⟨fun h => h.elim, fun h => by cases h.1⟩
    | some st =>
        refine ((Exact.mapM fun type _ => exact_wireParamLiteral g9 type).bind fun literals _ _ =>
          exact_pure (st, literals)).congr fun stmt t => ?_
        constructor
        · rintro ⟨literals, t1, t2, rfl, heach, rfl, rfl⟩
          rw [List.append_nil]
          exact ⟨rfl, heach⟩
        · rintro ⟨hst, heach⟩
          obtain ⟨st', literals⟩ := stmt
          obtain rfl : st = st' := Option.some.inj hst
          exact ⟨literals, t, [], (List.append_nil t).symm, heach, rfl, rfl⟩
  constructor
  · rintro ⟨stmtId, _, _, rfl, ⟨hid, rfl⟩, hknown, heach⟩
    obtain ⟨params, hfits, hquotes, hliterals, rfl⟩ := each_params.1 heach
    exact ⟨⟨stmtId, params⟩, ⟨hid, hknown, hfits⟩, hquotes, hliterals, rfl⟩
  · rintro ⟨op, hok, hquotes, hliterals, rfl⟩
    exact ⟨op.stmtId, _, _, rfl, ⟨hok.id, rfl⟩, hok.known, each_params.2 ⟨op.params, hok.params, hquotes, hliterals, rfl⟩⟩

theorem params_refuse {types : List UInt8} {params : List Param} (hfits : List.Forall₂ Param.Fits types params)
    (hquote : ¬∀ p ∈ params, p.NoQuote) : Refuses At (types.mapM (wireParamLiteral g9)) (params.flatMap Param.encode) := by
  induction hfits with
  | nil => exact absurd (fun p hp => absurd hp List.not_mem_nil) hquote
  | @cons type p types params hp hparams ih =>
      rw [List.mapM_cons, List.flatMap_cons]
      by_cases hhead : p.NoQuote
      · have htail : ¬∀ p ∈ params, p.NoQuote := fun h => hquote (List.forall_mem_cons.2 ⟨hhead, h⟩)
        exact (exact_wireParamLiteral g9 type).bind_refuses ⟨p, hp, hhead, rfl, rfl⟩ ((ih htail).bind _)
      · exact ((wireParamLiteral_refuses g9 hp hhead).bind _).append _

/-- An operation with a quote in a CHAR parameter is not decoded. -/
theorem readOp_refuses {op : Operation} {st : WirePreparedStmt} (hok : op.Ok prepared st) (hquote : ¬op.NoQuote) :
    Refuses At (readOp g9 prepared) op.encode := by
  refine exact_u16.bind_refuses ⟨hok.id, rfl⟩ ?_
  rw [hok.known]
  exact (params_refuse hok.params hquote).bind _

theorem execOps_complete {ops : List Operation} {sts : List WirePreparedStmt} (hok : List.Forall₂ (Operation.Ok prepared) ops sts)
    (hquotes : ∀ op ∈ ops, op.NoQuote) : ∀ {r : Reader} {rest : Bytes} {first : Nat} {b : BatchResult σ},
    At r (ops.flatMap Operation.encode ++ rest) →
      execOps g9 runSqlStatement prepared ops.length first r b =
        .ok (execAll runSqlStatement first (List.zipWith (fun op st => (st, op.literals g9 st)) ops sts) b) := by
  induction hok with
  | nil =>
      intro r rest first b hr
      rfl
  | @cons op st ops sts hop hops ih =>
      intro r rest first b hr
      rw [List.flatMap_cons, List.append_assoc] at hr
      obtain ⟨r', hread, hr'⟩ := exact_readOp.complete r (st, op.literals g9 st) op.encode _ hr
        ⟨op, hop, hquotes op List.mem_cons_self, rfl, rfl⟩
      rw [List.length_cons]
      unfold execOps
      rw [hread]
      show (if _ then _ else _) = Except.ok (if _ then _ else _)
      split
      · exact ih (fun op' hop' => hquotes op' (List.mem_cons_of_mem _ hop')) hr'
      · rfl

theorem execOps_sound : ∀ {n first : Nat} {r : Reader} {t : Bytes} {b b' : BatchResult σ}, At r t →
    execOps g9 runSqlStatement prepared n first r b = .ok b' → b'.status = .ok →
      ∃ (ops : List Operation) (sts : List WirePreparedStmt) (rest : Bytes), ops.length = n ∧
        List.Forall₂ (Operation.Ok prepared) ops sts ∧ (∀ op ∈ ops, op.NoQuote) ∧ t = ops.flatMap Operation.encode ++ rest := by
  intro n
  induction n with
  | zero =>
      intro first r t b b' _ _ _
      exact ⟨[], [], t, rfl, .nil, by simp, rfl⟩
  | succ n ih =>
      intro first r t b b' hr hrun hstatus
      unfold execOps at hrun
      cases hread : readOp g9 prepared r with
      | error e =>
          rw [hread] at hrun
          cases e with
          | protocol msg =>
              cases hrun
              cases hstatus
          | overrun => cases hrun
      | ok p =>
          rw [hread] at hrun
          obtain ⟨t1, rest, rfl, ⟨op, hop, hquote, -, rfl⟩, hr'⟩ := exact_readOp.sound r t p.1 p.2 hr hread
          dsimp only at hrun
          split at hrun
          · obtain ⟨ops, sts, rest', rfl, hops, hquotes, rfl⟩ := ih hr' hrun hstatus
            refine ⟨op :: ops, p.1.1 :: sts, rest', rfl, .cons hop hops, fun op' hop' => ?_, ?_⟩
            · rcases List.mem_cons.1 hop' with rfl | hop'
              · exact hquote
              · exact hquotes op' hop'
            · rw [List.flatMap_cons, List.append_assoc]
          · next hfail =>
              cases hrun
              exact absurd hstatus hfail

theorem execOps_safe : ∀ {n first : Nat} {r : Reader} {t : Bytes} {b : BatchResult σ} {e : Fault}, At r t →
    execOps g9 runSqlStatement prepared n first r b ≠ .error e := by
  intro n
  induction n with
  | zero =>
      intro first r t b e _ hrun
      cases hrun
  | succ n ih =>
      intro first r t b e hr hrun
      unfold execOps at hrun
      cases hread : readOp g9 prepared r with
      | error e' =>
          rw [hread] at hrun
          cases e' with
          | protocol msg => cases hrun
          | overrun => exact exact_readOp.safe r t .overrun hr hread rfl
      | ok p =>
          rw [hread] at hrun
          obtain ⟨_, rest, rfl, _, hr'⟩ := exact_readOp.sound r t p.1 p.2 hr hread
          dsimp only at hrun
          split at hrun
          · exact ih hr' hrun
          · cases hrun

theorem handleExecBatch_complete {ops : List Operation} {sts : List WirePreparedStmt} (hbatch : ExecBatch prepared ops sts)
    (hquotes : ∀ op ∈ ops, op.NoQuote) (h : (encodeExecBatch ops).length < 2 ^ 63) (state : σ) :
    handleExecBatch g9 runSqlStatement autoAbort prepared (encodeExecBatch ops) state =
      .ok (finishBatch autoAbort (execAll runSqlStatement 0 (List.zipWith (fun op st => (st, op.literals g9 st)) ops sts) { state })) := by
  have hcount := hbatch.count
  obtain ⟨r, hread, hr⟩ := exact_u16.complete _ ops.length _ _ (at_payload h) ⟨by omega, rfl⟩
  have hread' : Read.u16 { data := encodeExecBatch ops } = .ok (ops.length, r) := hread
  rw [← List.append_nil (ops.flatMap Operation.encode)] at hr
  unfold handleExecBatch
  rw [hread']
  dsimp only
  rw [if_neg (by omega), execOps_complete hbatch.ok hquotes hr]

theorem handleExecBatch_sound {payload : Bytes} (h : payload.length < 2 ^ 63) {state : σ} {b : BatchResult σ}
    (hrun : handleExecBatch g9 runSqlStatement autoAbort prepared payload state = .ok b) (hstatus : b.status = .ok) :
    ∃ ops sts rest, ExecBatch prepared ops sts ∧ (∀ op ∈ ops, op.NoQuote) ∧ payload = encodeExecBatch ops ++ rest := by
  unfold handleExecBatch at hrun
  cases hread : Read.u16 { data := payload } with
  | error e =>
      rw [hread] at hrun
      cases hrun
  | ok p =>
      rw [hread] at hrun
      obtain ⟨_, rest, rfl, ⟨hn, rfl⟩, hr⟩ := exact_u16.sound _ _ p.1 p.2 (at_payload h) hread
      dsimp only at hrun
      split at hrun
      · cases hrun
      · next hcount =>
          cases hops : execOps g9 runSqlStatement prepared p.1 0 p.2 { state } with
          | error e =>
              rw [hops] at hrun
              cases hrun
          | ok b' =>
              rw [hops] at hrun
              obtain rfl : finishBatch autoAbort b' = b := Except.ok.inj hrun
              have hstatus' : b'.status = .ok := by
                unfold finishBatch at hstatus
                split at hstatus
                · next hok => exact hok
                · exact hstatus
              obtain ⟨ops, sts, rest', hlen, hok, hquotes, rfl⟩ := execOps_sound hr hops hstatus'
              refine ⟨ops, sts, rest', ⟨by omega, hok⟩, hquotes, ?_⟩
              unfold encodeExecBatch
              rw [hlen, List.append_assoc]

theorem handleExecBatch_ne_overrun {payload : Bytes} (h : payload.length < 2 ^ 63) (state : σ) :
    handleExecBatch g9 runSqlStatement autoAbort prepared payload state ≠ .error .overrun := by
  unfold handleExecBatch
  intro hrun
  cases hread : Read.u16 { data := payload } with
  | error e =>
      rw [hread] at hrun
      exact exact_u16.safe _ _ e (at_payload h) hread (Except.error.inj hrun)
  | ok p =>
      rw [hread] at hrun
      obtain ⟨_, rest, rfl, _, hr⟩ := exact_u16.sound _ _ p.1 p.2 (at_payload h) hread
      dsimp only at hrun
      split at hrun
      · cases hrun
      · cases hops : execOps g9 runSqlStatement prepared p.1 0 p.2 { state } with
        | error e => exact execOps_safe hr hops
        | ok b' =>
            rw [hops] at hrun
            cases hrun

end

/-- No byte past the end is read.  A PREPARE_SET with the tags of the protocol is accepted, and an accepted one
is the text of statements.  An EXEC_BATCH without quotes has its operations executed in order until
one of them fails, and one that is executed to its end begins with the text of operations. -/
theorem requests_accepted {σ : Type} (g9 : BitVec 32 → Bytes) (runSqlStatement : σ → Bytes → Bool → SqlRun × σ) (autoAbort : σ → σ) :
    (∀ payload : Bytes, payload.length < 2 ^ 63 →
      decodePrepareSet payload ≠ .error .overrun ∧
      ((∃ stmts, PrepareSet stmts ∧ (∀ st ∈ stmts, st.Tagged) ∧ payload = encodePrepareSet stmts) →
        ∃ fresh, decodePrepareSet payload = .ok fresh) ∧
      ∀ fresh, decodePrepareSet payload = .ok fresh → ∃ stmts, PrepareSet stmts ∧ payload = encodePrepareSet stmts) ∧
    ∀ (prepared : Prepared) (payload : Bytes) (state : σ), payload.length < 2 ^ 63 →
      handleExecBatch g9 runSqlStatement autoAbort prepared payload state ≠ .error .overrun ∧
      (∀ ops sts, ExecBatch prepared ops sts → (∀ op ∈ ops, op.NoQuote) → payload = encodeExecBatch ops →
        handleExecBatch g9 runSqlStatement autoAbort prepared payload state = .ok (finishBatch autoAbort
          (execAll runSqlStatement 0 (List.zipWith (fun op st => (st, op.literals g9 st)) ops sts) { state }))) ∧
      ∀ b, handleExecBatch g9 runSqlStatement autoAbort prepared payload state = .ok b → b.status = .ok →
        ∃ ops sts rest, ExecBatch prepared ops sts ∧ payload = encodeExecBatch ops ++ rest := by
  constructor
  · intro payload h
    refine ⟨decodePrepareSet_ne_overrun h, ?_, ?_⟩
    · rintro ⟨stmts, hset, -, hpayload⟩
      exact ⟨_, (decodePrepareSet_eq_iff h).2 ⟨stmts, hset, rfl, hpayload⟩⟩
    · intro fresh hfresh
      obtain ⟨stmts, hset, -, hpayload⟩ := (decodePrepareSet_eq_iff h).1 hfresh
      exact ⟨stmts, hset, hpayload⟩
  · intro prepared payload state h
    refine ⟨handleExecBatch_ne_overrun h state, ?_, ?_⟩
    · rintro ops sts hbatch hquotes rfl
      exact handleExecBatch_complete hbatch hquotes h state
    · intro b hrun hstatus
      obtain ⟨ops, sts, rest, hbatch, -, hpayload⟩ := handleExecBatch_sound h hrun hstatus
      exact ⟨ops, sts, rest, hbatch, hpayload⟩

/-- A command `$1` with a parameter of the type. -/
def markerStmt (type : UInt8) : Statement := ⟨1, 0, [type], [36, 49]⟩

theorem markerStmt_ok (type : UInt8) : (markerStmt type).Ok := ⟨(by decide : (1 : Nat) ≠ 0), (by decide : 1 < 2 ^ 16),
  (by decide : 1 < 2 ^ 16), (by decide : 2 < 2 ^ 32)⟩

theorem requests_accepted_marker :
    (∃ fresh, decodePrepareSet (encodePrepareSet [markerStmt sqltypeInt32]) = .ok fresh) ∧
    handleExecBatch (fun _ => []) (fun (state : List Bytes) sql _ => (⟨.ok, [], ""⟩, sql :: state)) id
        [(markerStmt sqltypeInt32).prepared] (encodeExecBatch [⟨1, [.int 7]⟩]) [] =
      .ok { state := [[55]], executed := 1 } := by
  constructor
  · refine ((requests_accepted (fun _ => []) (fun (state : Unit) _ _ => (⟨.ok, [], ""⟩, state)) id).1 _ (by decide)).2.1
      ⟨_, ⟨by decide, fun st hst => ?_, by decide⟩, fun st hst => ?_, rfl⟩
    · rw [List.mem_singleton.1 hst]
      exact markerStmt_ok _
    · rw [List.mem_singleton.1 hst]
      exact ⟨by decide, fun t ht => .inl (List.mem_singleton.1 ht)⟩
  · refine (((requests_accepted (fun _ => []) (fun (state : List Bytes) sql _ => (⟨.ok, [], ""⟩, sql :: state)) id).2
      [(markerStmt sqltypeInt32).prepared] (encodeExecBatch [⟨1, [.int 7]⟩]) [] (by decide)).2.1
      [⟨1, [.int 7]⟩] [(markerStmt sqltypeInt32).prepared.2] ⟨by decide, .cons ⟨by decide, rfl, ?_⟩ .nil⟩ ?_ rfl).trans rfl
    · exact .cons rfl .nil
    · intro op hop
      obtain rfl := List.mem_singleton.1 hop
      intro p hp
      obtain rfl := List.mem_singleton.1 hp
      trivial

/-- A batch whose CHAR parameter is a quote is refused. -/
theorem quote_refused : ∃ ops sts, ExecBatch [(markerStmt sqltypeChar).prepared] ops sts ∧
    handleExecBatch (fun _ => []) (fun (state : List Bytes) sql _ => (⟨.ok, [], ""⟩, sql :: state)) id
        [(markerStmt sqltypeChar).prepared] (encodeExecBatch ops) [] =
      .ok { state := [], status := .error, failedOp := 0,
            diag := "CHAR parameter contains ' which cannot be safely embedded" } := by
  refine ⟨[⟨1, [.char [quote]]⟩], [(markerStmt sqltypeChar).prepared.2], ⟨by decide, .cons ⟨by decide, rfl, ?_⟩ .nil⟩, rfl⟩
  exact .cons ⟨by decide, by decide, by decide⟩ .nil

end Rmdb.Wire
