/-
Row-level security decisions (`exec.rs`: `policy_applies`, `rls_read`,
`rls_write`, `enforce_rls_write`).

Reads and writes share one decision procedure; they differ in which text of a
policy they take (`USING`, or `WITH CHECK` falling back to `USING`).
-/
import Twill.Eval

namespace Twill

/-- Whether a policy governs `cmd` for `role`. -/
def policyApplies (p : Policy) (cmd : PolicyCommand) (role : String) : Bool :=
  (p.command = .all || p.command = cmd) &&
    (p.roles.isEmpty || p.roles.any fun r => eqIgnoreAsciiCase r role)

/-- The decision for one table and command: every row, the rows satisfying one
of the predicates, or none. -/
inductive RlsDecision where
  | unrestricted
  | filter (preds : List Expr)
  | deny

/-- The predicates of the applicable policies, parsed in order; `none` as soon
as one of them has no text and so admits every row. -/
def policyPreds (E : Env) (text : Policy → Option String) : List Policy → Res (Option (List Expr))
  | [] => .ok (some [])
  | p :: ps => match text p with
    | none => .ok none
    | some sql => do
      let e ← E.frontend.parseExpr sql
      return (← policyPreds E text ps).map (e :: ·)

def applicablePolicies (E : Env) (schema : TableSchema) (cmd : PolicyCommand) : List Policy :=
  schema.policies.filter fun p => policyApplies p cmd E.session.roleName

def rlsDecide (E : Env) (text : Policy → Option String) (schema : TableSchema) (cmd : PolicyCommand) :
    Res RlsDecision :=
  if !schema.rlsEnabled || E.session.bypass then .ok .unrestricted
  else do
    let applicable := applicablePolicies E schema cmd
    match ← policyPreds E text applicable with
    | none => return .unrestricted
    | some preds =>
      if applicable.isEmpty then return .deny
      else if preds.isEmpty then return .unrestricted
      else return .filter preds

/-- The `USING` decision. -/
def rlsRead (E : Env) (schema : TableSchema) (cmd : PolicyCommand) : Res RlsDecision :=
  rlsDecide E (fun p => p.using_) schema cmd

/-- The `WITH CHECK` decision; a policy without one falls back to its `USING`. -/
def rlsWrite (E : Env) (schema : TableSchema) (cmd : PolicyCommand) : Res RlsDecision :=
  rlsDecide E (fun p => p.check.or p.using_) schema cmd

/-- Whether some predicate is true of the row, trying them in order. -/
def anyPred (E : Env) : List Expr → EvalCtx → Res Bool
  | [], _ => .ok false
  | p :: ps, ctx => do
    if (← eval E p ctx).asBool = some true then return true
    anyPred E ps ctx

/-- `RlsRead::passes`. -/
def RlsDecision.passes (E : Env) (d : RlsDecision) (ctx : EvalCtx) : Res Bool :=
  match d with
  | .unrestricted => .ok true
  | .deny => .ok false
  | .filter preds => anyPred E preds ctx

/-- Rejects a proposed row that no predicate admits. -/
def enforceRlsWrite (E : Env) (d : RlsDecision) (schema : TableSchema) (table : String) (vals : Row) :
    Res Unit := do
  if ← d.passes E (EvalCtx.ofRow vals schema []) then return ()
  throw (EngineError.constraint ("new row violates row-level security policy for table " ++ table))

end Twill
