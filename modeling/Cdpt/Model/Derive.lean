import Mathlib

/-!
# The code that `#[derive(TraceObj)]` generates (`cdpt-derive/src/lib.rs`)

The types the macro recognises, the statements it emits for them, and a run of
these statements on a value. The generator uses the same few names at every
level, so the statements are run in an environment, with the scoping Rust gives
them: the names bound by `if let`, `for` and a match arm are visible in its
block, a `let` is visible in the rest of the block it stands in.

Borrows and smart pointers are transparent: a reference, a `Box` or an `Arc` is
the value it leads to. The length of an array is an expression the macro never
looks at, so an array is a sequence of any length. A statement whose expression
denotes nothing of the right form does nothing; the compiler would refuse it.
-/

namespace Cdpt.Derive

inductive Method
  | unroot
  | shade
deriving DecidableEq, Repr

/-- The identifiers of the generated code: `__inner`, `__ok` and `__err`, the
names `f0`, `f1`, … of a tuple variant, and those of the user's fields, which
may be any of these. -/
inductive Ident
  | self
  | inner
  | ok
  | err
  | f (i : Nat)
  | user (n : Nat)
deriving DecidableEq, Repr

inductive PtrKind
  | Shared
  | AtomicShared
  | AtomicSharedOption
deriving DecidableEq, Repr

inductive SeqKind
  | Vec
  | VecDeque
  | ArrayVec
deriving DecidableEq, Repr

inductive SmartKind
  | Box
  | Arc
deriving DecidableEq, Repr

inductive Ty
  | ptr (k : PtrKind)
  | other
  | option (T : Ty)
  | seq (k : SeqKind) (T : Ty)
  | smart (k : SmartKind) (T : Ty)
  | result (T E : Ty)
  | tuple (ts : List Ty)
  | array (T : Ty)
  | slice (T : Ty)
  | reference (T : Ty)

inductive Expr
  | var (x : Ident)
  | field (e : Expr) (i : Nat)
  | deref (e : Expr)
deriving DecidableEq, Repr

inductive Stmt
  /-- `expr.method(guard);` -/
  | call (e : Expr) (m : Method)
  /-- `if let Some(__inner) = &expr { .. }` -/
  | ifLetSome (e : Expr) (body : List Stmt)
  /-- `for __inner in &expr { .. }` -/
  | forIn (e : Expr) (body : List Stmt)
  /-- `match &expr { Ok(__ok) => { .. } Err(__err) => { .. } }` -/
  | matchResult (e : Expr) (ok err : List Stmt)
  /-- `let __inner = &expr;` -/
  | letInner (e : Expr)

/-! ## The generator -/

mutual

/-- `gen_trace_for_type`. The arm of a `Result` without a trace is empty. -/
@[simp] def genTraceForType (m : Method) : Ty → Expr → Option (List Stmt)
  | .ptr _, e => some [.call e m]
  | .other, _ => none
  | .option T, e => (genTraceForType m T (.var .inner)).map fun ss => [.ifLetSome e ss]
  | .seq _ T, e | .array T, e | .slice T, e =>
      (genTraceForType m T (.var .inner)).map fun ss => [.forIn e ss]
  | .smart _ T, e => genTraceForType m T (.deref e)
  | .result T E, e => some [.matchResult e ((genTraceForType m T (.var .ok)).getD [])
      ((genTraceForType m E (.var .err)).getD [])]
  | .tuple ts, e =>
      let elems := genElems m e.field 0 ts
      if elems.isEmpty then none else some elems.flatten
  | .reference T, e => (genTraceForType m T (.var .inner)).map fun ss => .letInner e :: ss

/-- The traces of consecutive elements or fields; those of `i` are reached by
the expression `es i`. -/
@[simp] def genElems (m : Method) (es : Nat → Expr) (i : Nat) : List Ty → List (List Stmt)
  | [] => []
  | T :: ts => (genTraceForType m T (es i)).toList ++ genElems m es (i + 1) ts

end

/-- The fields of a struct or of a variant. -/
inductive Fields
  | named (fs : List (Ident × Ty)) (h : (fs.map Prod.fst).Nodup)
  | unnamed (ts : List Ty)
  | unit

def Fields.types : Fields → List Ty
  | .named fs _ => fs.map Prod.snd
  | .unnamed ts => ts
  | .unit => []

/-- The names that the pattern of a variant binds. -/
def Fields.names : Fields → List Ident
  | .named fs _ => fs.map Prod.fst
  | .unnamed ts => (List.range ts.length).map .f
  | .unit => []

/-- The expression for field `i`; in a variant the pattern has bound a name. -/
def Fields.expr (fs : Fields) (variant : Bool) (i : Nat) : Expr :=
  if variant then .var ((fs.names[i]?).getD (.f i)) else .field (.var .self) i

def genFieldsTrace (fs : Fields) (m : Method) (variant : Bool) : List Stmt :=
  (genElems m (fs.expr variant) 0 fs.types).flatten

inductive Data
  | struct (fs : Fields)
  | enum (variants : List Fields)
  | union

inductive Body
  | block (ss : List Stmt)
  /-- `match self { .. }`, with the names each pattern binds. -/
  | matchSelf (arms : List (List Ident × List Stmt))

def genBody (d : Data) (m : Method) : Except String Body :=
  match d with
  | .struct fs => .ok (.block (genFieldsTrace fs m false))
  | .enum variants =>
      .ok (.matchSelf (variants.map fun fs => (fs.names, genFieldsTrace fs m true)))
  | .union => .error "TraceObj cannot be derived for unions"

/-! ## Values -/

/-- A value, with the occurrences of managed pointers named by an `α`. -/
inductive Val (α : Type)
  | ptr (p : α)
  | other
  | none
  | some (v : Val α)
  | seq (vs : List (Val α))
  | ok (v : Val α)
  | err (v : Val α)
  | tuple (vs : List (Val α))

variable {α : Type}

inductive HasTy : Ty → Val α → Prop
  | ptr {k : PtrKind} {p : α} : HasTy (.ptr k) (.ptr p)
  | other : HasTy .other .other
  | none {T : Ty} : HasTy (.option T) .none
  | some {T : Ty} {v : Val α} (h : HasTy T v) : HasTy (.option T) (.some v)
  | seq {k : SeqKind} {T : Ty} {vs : List (Val α)} (h : ∀ v ∈ vs, HasTy T v) :
      HasTy (.seq k T) (.seq vs)
  | array {T : Ty} {vs : List (Val α)} (h : ∀ v ∈ vs, HasTy T v) : HasTy (.array T) (.seq vs)
  | slice {T : Ty} {vs : List (Val α)} (h : ∀ v ∈ vs, HasTy T v) : HasTy (.slice T) (.seq vs)
  | smart {k : SmartKind} {T : Ty} {v : Val α} (h : HasTy T v) : HasTy (.smart k T) v
  | reference {T : Ty} {v : Val α} (h : HasTy T v) : HasTy (.reference T) v
  | ok {T E : Ty} {v : Val α} (h : HasTy T v) : HasTy (.result T E) (.ok v)
  | err {T E : Ty} {v : Val α} (h : HasTy E v) : HasTy (.result T E) (.err v)
  | tuple {ts : List Ty} {vs : List (Val α)} (h : List.Forall₂ HasTy ts vs) :
      HasTy (.tuple ts) (.tuple vs)

mutual

@[simp] def Val.occurrences : Val α → List α
  | .ptr p => [p]
  | .other | .none => []
  | .some v | .ok v | .err v => v.occurrences
  | .seq vs | .tuple vs => occurrencesList vs

@[simp] def occurrencesList : List (Val α) → List α
  | [] => []
  | v :: vs => v.occurrences ++ occurrencesList vs

end

/-- A struct (whose variant is 0) or an enum. -/
structure DataVal (α : Type) where
  variant : Nat
  fields : List (Val α)

def DataVal.occurrences (v : DataVal α) : List α := occurrencesList v.fields

def Data.HasTy (d : Data) (v : DataVal α) : Prop :=
  match d with
  | .struct fs => v.variant = 0 ∧ List.Forall₂ Derive.HasTy fs.types v.fields
  | .enum variants =>
      ∃ fs, variants[v.variant]? = some fs ∧ List.Forall₂ Derive.HasTy fs.types v.fields
  | .union => False

/-! ## Running the generated code -/

abbrev Env (α : Type) := Ident → Option (Val α)

@[simp] def Expr.eval (env : Env α) : Expr → Option (Val α)
  | .var x => env x
  | .field e i =>
      match e.eval env with
      | some (.tuple vs) => vs[i]?
      | _ => none
  | .deref e => e.eval env

def Env.set (env : Env α) (x : Ident) (v : Val α) : Env α := Function.update env x (some v)

mutual

/-- The environment for the rest of the block, and the calls made. -/
@[simp] def Stmt.exec (env : Env α) : Stmt → Env α × List (Method × α)
  | .call e m =>
      match e.eval env with
      | some (.ptr p) => (env, [(m, p)])
      | _ => (env, [])
  | .ifLetSome e body =>
      match e.eval env with
      | some (.some v) => (env, (execStmts (env.set .inner v) body).2)
      | _ => (env, [])
  | .forIn e body =>
      match e.eval env with
      | some (.seq vs) => (env, vs.flatMap fun v => (execStmts (env.set .inner v) body).2)
      | _ => (env, [])
  | .matchResult e ok err =>
      match e.eval env with
      | some (.ok v) => (env, (execStmts (env.set .ok v) ok).2)
      | some (.err v) => (env, (execStmts (env.set .err v) err).2)
      | _ => (env, [])
  | .letInner e => (Function.update env .inner (e.eval env), [])

@[simp] def execStmts (env : Env α) : List Stmt → Env α × List (Method × α)
  | [] => (env, [])
  | s :: ss =>
      let r := s.exec env
      let r' := execStmts r.1 ss
      (r'.1, r.2 ++ r'.2)

end

/-- The environment in an arm: the pattern binds the fields in order. -/
def Env.bind (names : List Ident) (vs : List (Val α)) : Env α :=
  fun x => (names.zip vs).lookup x

/-- The calls of a generated method on a value. -/
def Body.run (b : Body) (v : DataVal α) : List (Method × α) :=
  match b with
  | .block ss => (execStmts (Env.set (fun _ => none) .self (.tuple v.fields)) ss).2
  | .matchSelf arms =>
      match arms[v.variant]? with
      | some (names, ss) => (execStmts (Env.bind names v.fields) ss).2
      | none => []

/-! ## Where a name is read under a later binding of it -/

def Expr.root : Expr → Ident
  | .var x => x
  | .field e _ => e.root
  | .deref e => e.root

mutual

/-- Some managed pointer type stands under the wrappers. -/
@[simp] def Ty.hasPtr : Ty → Bool
  | .ptr _ => true
  | .other => false
  | .option T | .seq _ T | .smart _ T | .array T | .slice T | .reference T => T.hasPtr
  | .result T E => T.hasPtr || E.hasPtr
  | .tuple ts => anyHasPtr ts

@[simp] def anyHasPtr : List Ty → Bool
  | [] => false
  | T :: ts => T.hasPtr || anyHasPtr ts

end

mutual

/-- `gen_trace_for_type` answers `Some`. It does so for every `Result`. -/
@[simp] def Ty.traced : Ty → Bool
  | .ptr _ | .result _ _ => true
  | .other => false
  | .option T | .seq _ T | .smart _ T | .array T | .slice T | .reference T => T.traced
  | .tuple ts => anyTraced ts

@[simp] def anyTraced : List Ty → Bool
  | [] => false
  | T :: ts => T.traced || anyTraced ts

end

mutual

/-- The trace leaves a `let __inner` behind in the block it stands in. -/
@[simp] def Ty.bindsInner : Ty → Bool
  | .reference T => T.traced
  | .smart _ T => T.bindsInner
  | .tuple ts => anyBindsInner ts
  | _ => false

@[simp] def anyBindsInner : List Ty → Bool
  | [] => false
  | T :: ts => T.bindsInner || anyBindsInner ts

end

mutual

/-- No element that holds managed pointers and is reached through `__inner`
comes after one that binds `__inner` again; `inner` says that the expression
for the type itself starts at `__inner`. -/
@[simp] def Ty.clear : Ty → Bool → Bool
  | .ptr _, _ | .other, _ => true
  | .option T, _ | .seq _ T, _ | .array T, _ | .slice T, _ | .reference T, _ => T.clear true
  | .smart _ T, inner => T.clear inner
  | .result T E, _ => T.clear false && E.clear false
  | .tuple ts, inner => clearElems (fun _ => inner) 0 false ts

@[simp] def clearElems (inner : Nat → Bool) (i : Nat) (bound : Bool) : List Ty → Bool
  | [] => true
  | T :: ts => T.clear (inner i) && !(bound && inner i && T.hasPtr) &&
      clearElems inner (i + 1) (bound || T.bindsInner) ts

end

def Fields.clear (fs : Fields) (variant : Bool) : Bool :=
  clearElems (fun i => (fs.expr variant i).root = .inner) 0 false fs.types

def Data.clear : Data → Bool
  | .struct fs => fs.clear false
  | .enum variants => variants.all (·.clear true)
  | .union => false

end Cdpt.Derive
