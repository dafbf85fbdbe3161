import PolyLambda.Proofs.Evaluation.Builtins
import PolyLambda.Proofs.Module.Mentions

/-!
# Integer arithmetic

Words of 64 bits are the integers modulo `2 ^ 64`, and sums, differences, products and negatives do
not mind where they are reduced. So an expression made of them has the value that it has over the
unbounded integers, reduced once, whatever overflows on the way. A quotient does mind: it is that of
the words that its operands have. Evaluation goes from left to right and fails at the first divisor
that is zero (`evaluate_arithmetic`).
-/

namespace PolyLambda

/-! ## Expressions over the integers -/

/-- The integer from `-2 ^ 63` up to `2 ^ 63` that differs from `x` by a multiple of `2 ^ 64`. -/
def wrap (x : Int) : Int := x.bmod Int64.size

namespace Arithmetic

inductive Operation where
  | add | sub | mul | div
  deriving DecidableEq

/-- An integer expression. -/
inductive Tree where
  | int (n : Int64)
  | neg (operand : Tree)
  | binary (operation : Operation) (left right : Tree)
  deriving DecidableEq

namespace Operation

def symbol : Operation → String
  | add => "+"
  | sub => "-"
  | mul => "*"
  | div => "/"

/-- The operation on unbounded integers, apart from quotients: these are of wrapped operands,
without the fraction. -/
def onInt : Operation → Int → Int → Int
  | add, x, y => x + y
  | sub, x, y => x - y
  | mul, x, y => x * y
  | div, x, y => (wrap x).tdiv (wrap y)

end Operation

namespace Tree

/-- The value over the unbounded integers. It has no meaning if a divisor is zero. -/
def value : Tree → Int
  | int n => n.toInt
  | neg a => -a.value
  | binary op a b => op.onInt a.value b.value

/-- The divisors, in the order in which their values are known. -/
def divisors : Tree → List Tree
  | int _ => []
  | neg a => a.divisors
  | binary op a b => a.divisors ++ b.divisors ++ (if op = .div then [b] else [])

/-- Some divisor is zero, and is reached since none is before it. -/
def DividesByZero (t : Tree) : Prop :=
  ∃ before d after, t.divisors = before ++ d :: after ∧ (∀ c ∈ before, wrap c.value ≠ 0) ∧
    wrap d.value = 0

/-- The source expression is the tree, wherever its nodes stand. -/
inductive Written : Tree → Surface.Expr → Prop
  | int (s : Span) (n : Int64) : Written (.int n) (.int s n)
  | neg (s : Span) {a : Tree} {e : Surface.Expr} : Written a e → Written (.neg a) (.op s "-" [e])
  | binary (s : Span) (op : Operation) {a b : Tree} {e f : Surface.Expr} :
      Written a e → Written b f →
    Written (.binary op a b) (.op s op.symbol [e, f])

end Tree

/-! ## Words -/

/-- The operation on words, which a divisor of zero has no result of. -/
def Operation.onWords : Operation → Int64 → Int64 → Except EvalError Int64
  | add, x, y => .ok (x + y)
  | sub, x, y => .ok (x - y)
  | mul, x, y => .ok (x * y)
  | div, x, y => if y = 0 then .error .divisionByZero else .ok (x / y)

theorem toInt_ofInt (x : Int) : (Int64.ofInt x).toInt = wrap x :=
  Int64.toInt_ofInt

theorem ofInt_tdiv (x y : Int) :
    Int64.ofInt ((wrap x).tdiv (wrap y)) = Int64.ofInt x / Int64.ofInt y := by
  rw [← Int64.toInt_inj, Int64.toInt_div, toInt_ofInt, toInt_ofInt, toInt_ofInt]
  rfl

/-- An operation on words is that on unbounded integers, reduced. -/
theorem Operation.onWords_ofInt (op : Operation) (x y : Int) :
    op.onWords (Int64.ofInt x) (Int64.ofInt y) =
      if op = .div ∧ Int64.ofInt y = 0 then .error .divisionByZero
      else .ok (Int64.ofInt (op.onInt x y)) := by
  cases op with
  | add => rw [onWords, onInt, Int64.ofInt_add, if_neg nofun]
  | sub => rw [onWords, onInt, Int64.ofInt_sub, if_neg nofun]
  | mul => rw [onWords, onInt, Int64.ofInt_mul, if_neg nofun]
  | div =>
    rw [onWords, onInt, ofInt_tdiv]
    simp only [true_and]

namespace Tree

/-- The value as a word. -/
def word (t : Tree) : Int64 := Int64.ofInt t.value

theorem word_eq_zero_iff {t : Tree} : t.word = 0 ↔ wrap t.value = 0 := by
  rw [← Int64.toInt_inj, word, toInt_ofInt]
  rfl

/-- What a tree comes to: nothing if a divisor is zero, else its value. -/
def result (t : Tree) : Except EvalError Int64 :=
  if ∃ d ∈ t.divisors, d.word = 0 then .error .divisionByZero else .ok t.word

theorem result_int (n : Int64) : (int n).result = .ok n := by
  rw [result, if_neg (by rintro ⟨_, ⟨⟩, -⟩), word, value, n.ofInt_toInt]

theorem result_neg (a : Tree) : (neg a).result = a.result.map (- ·) := by
  rw [result, result, divisors]
  split
  · rfl
  · rw [word, value, Int64.ofInt_neg]
    rfl

theorem result_binary (op : Operation) (a b : Tree) :
    (binary op a b).result = a.result.bind fun x => b.result.bind (op.onWords x) := by
  -- a zero divisor is one of the left operand, one of the right operand, or the right operand
  have hiff : (∃ d ∈ (binary op a b).divisors, d.word = 0) ↔
      (∃ d ∈ a.divisors, d.word = 0) ∨ (∃ d ∈ b.divisors, d.word = 0) ∨ op = .div ∧ b.word = 0 := by
    rw [divisors]
    split <;> simp [*, or_and_right, exists_or]
  rw [result, result, result]
  simp only [hiff]
  by_cases ha : ∃ d ∈ a.divisors, d.word = 0
  · rw [if_pos (.inl ha), if_pos ha]
    rfl
  by_cases hb : ∃ d ∈ b.divisors, d.word = 0
  · rw [if_pos (.inr (.inl hb)), if_neg ha, if_pos hb]
    rfl
  rw [if_neg ha, if_neg hb]
  simp only [ha, hb, false_or]
  exact (op.onWords_ofInt a.value b.value).symm

end Tree

end Arithmetic

/-! ## What terms come to -/

namespace Machine

/-- With enough depth of recursion the term comes to the result, whatever is in scope. -/
def ComesTo (m : Machine) (t : Term) (r : Except EvalError Value) : Prop :=
  ∃ bound, ∀ globals limit env history, bound ≤ limit →
    (m.evaluate globals limit t env).outcome? history = some (r, history)

variable {m : Machine}

theorem comesTo_int (n : Int64) : m.ComesTo (.int n) (.ok (.int n)) := by
  refine ⟨1, ?_⟩
  rintro globals (_ | limit) env history hlimit
  · cases hlimit
  · rfl

/-- A primitive that the host has waits for its arguments. -/
theorem comesTo_prim {name : String} {op : Operation} (hop : m.operation name = .ok op)
    (harity : 0 < op.arity) : m.ComesTo (.prim name) (.ok (.prim name op [])) := by
  refine ⟨1, ?_⟩
  rintro globals (_ | limit) env history hlimit
  · cases hlimit
  · rw [evaluate, hop]
    refine LimitedState.outcome?_bind_eq_ok_iff.2 ⟨_, history, rfl, ?_⟩
    exact congrArg (LimitedState.outcome? · history) (if_pos harity)

/-- The function goes first, then the argument, and then the one is applied to the other. -/
theorem ComesTo.app {f a : Term} {r s : Except EvalError Value} (hf : m.ComesTo f r)
    (ha : m.ComesTo a s) (call : Value → Value → Except EvalError Value)
    (hcall : ∀ v w, r = .ok v → s = .ok w → ∀ eval history,
      (m.applyWith eval v w).outcome? history = some (call v w, history)) :
    m.ComesTo (.app f a) (r.bind fun v => s.bind (call v)) := by
  obtain ⟨bound, hf⟩ := hf
  obtain ⟨bound', ha⟩ := ha
  -- the application takes one level, and both of its parts are below it
  refine ⟨max bound bound' + 1, ?_⟩
  rintro globals (_ | limit) env history hlimit
  · cases hlimit
  · obtain ⟨hbound, hbound'⟩ := Nat.max_le.1 (Nat.le_of_succ_le_succ hlimit)
    rw [evaluate, LimitedState.outcome?_bind, hf globals limit env history hbound]
    cases r with
    | error e => rfl
    | ok v =>
      dsimp only
      rw [LimitedState.outcome?_bind, ha globals limit env history hbound']
      cases s with
      | error e => rfl
      | ok w => exact hcall v w rfl rfl _ history

/-- Applied to its last argument a primitive runs. -/
theorem ComesTo.run {p : Primitive} {op : Operation}
    (hrun : ∀ args, m.runPrimitive p.name op args = liftM (p.run args)) {f a : Term}
    (args : List Value) {s : Except EvalError Value} (harity : op.arity = args.length + 1)
    (hf : m.ComesTo f (.ok (.prim p.name op args))) (ha : m.ComesTo a s) :
    m.ComesTo (.app f a) (s.bind fun v => p.run (args ++ [v])) := by
  refine hf.app ha (fun _ v => p.run (args ++ [v])) ?_
  rintro _ v ⟨⟩ - eval history
  have hlength : ¬ (args ++ [v]).length < op.arity := by
    rw [harity, List.length_append]
    exact Nat.lt_irrefl _
  rw [applyWith, callPrimitive, if_neg hlength, hrun]
  exact LimitedState.outcome?_liftM history _

theorem ComesTo.run_one {p : Primitive} (hp : m.host.primitive? p.name = some p)
    (harity : p.arity = 1) {a : Term} {r : Except EvalError Value} (ha : m.ComesTo a r) :
    m.ComesTo (.app (.prim p.name) a) (r.bind fun v => p.run [v]) := by
  obtain ⟨op, hop, hsame, hrun⟩ := operation_of_primitive? hp
  replace harity : op.arity = 1 := hsame.trans harity
  exact ComesTo.run hrun [] harity (comesTo_prim hop (harity ▸ Nat.one_pos)) ha

/-- Applied to two terms a primitive gets their values from left to right. -/
theorem ComesTo.run_two {p : Primitive} (hp : m.host.primitive? p.name = some p)
    (harity : p.arity = 2) {a b : Term} {r s : Except EvalError Value} (ha : m.ComesTo a r)
    (hb : m.ComesTo b s) :
    m.ComesTo (.app (.app (.prim p.name) a) b) (r.bind fun v => s.bind fun w => p.run [v, w]) := by
  obtain ⟨op, hop, hsame, hrun⟩ := operation_of_primitive? hp
  replace harity : op.arity = 2 := hsame.trans harity
  have hprim := comesTo_prim hop (harity ▸ Nat.zero_lt_two)
  have hfirst : m.ComesTo (.app (.prim p.name) a) (r.bind fun v => .ok (.prim p.name op [v])) := by
    refine hprim.app ha (fun _ v => .ok (.prim p.name op [v])) ?_
    rintro _ v ⟨⟩ - eval history
    exact congrArg (LimitedState.outcome? · history) (if_pos (harity ▸ Nat.one_lt_two))
  cases r with
  | error e => exact hfirst.app hb (fun v w => p.run [v, w]) nofun
  | ok v => exact ComesTo.run hrun [v] harity hfirst hb

end Machine

/-! ## Evaluation of arithmetic -/

namespace Arithmetic

/-- Each operation is a primitive of the language. -/
theorem Operation.exists_primitive (op : Operation) :
    ∃ p ∈ Primitive.builtins, Surface.Operator.primitive? op.symbol 2 = some p.name ∧ p.arity = 2 ∧
      ∀ x y, p.run [.int x, .int y] = (op.onWords x y).map .int := by
  cases op with
  | add => exact ⟨_, .head _, rfl, rfl, fun _ _ => rfl⟩
  | sub => exact ⟨_, .tail _ (.head _), rfl, rfl, fun _ _ => rfl⟩
  | mul => exact ⟨_, .tail _ (.tail _ (.head _)), rfl, rfl, fun _ _ => rfl⟩
  | div =>
    refine ⟨_, .tail _ (.tail _ (.tail _ (.head _))), rfl, rfl, fun x y => ?_⟩
    change Primitive.divide x y = _
    rw [Primitive.divide, onWords]
    split <;> rfl

theorem exists_negation :
    ∃ p ∈ Primitive.builtins, Surface.Operator.primitive? "-" 1 = some p.name ∧ p.arity = 1 ∧
      ∀ x : Int64, p.run [.int x] = .ok (.int (-x)) :=
  ⟨_, .tail _ (.tail _ (.tail _ (.tail _ (.head _)))), rfl, rfl, fun _ => rfl⟩

/-- Every module has the primitives of the language. -/
theorem contains_of_mem_builtins (ds : List Surface.Declaration) :
    ∀ p ∈ Primitive.builtins, (Module.ofSurface ds).primitiveTypes.contains p.name = true := by
  have hprelude : ∀ p ∈ Primitive.builtins,
      Prelude.emptyModule.primitiveTypes.contains p.name = true := by decide
  exact fun p hp => (Module.extends_ofSurface [] ds).primitiveTypes p.name (hprelude p hp)

variable {m : Machine} {scope : Scope}

/-- An operator on operands that are resolved to terms. -/
theorem resolve_op {p : Primitive} (hp : scope.sig.primitiveTypes.contains p.name = true)
    {operator : String} {es : List Surface.Expr} (ts : List Term)
    (hoperator : Surface.Operator.primitive? operator es.length = some p.name)
    (hes : Surface.Expr.resolveAll scope es = .ok ts) (s : Span) :
    (Surface.Expr.op s operator es).resolve scope = .ok (ts.foldl .app (.prim p.name)) := by
  rw [Surface.Expr.resolve_op, Scope.resolveOperator, hoperator]
  dsimp only
  rw [if_pos hp, hes]
  rfl

/-- A tree is resolved to a term that comes to its result. -/
theorem Tree.Written.comesTo {t : Tree} {e : Surface.Expr} (h : t.Written e)
    (hhost : m.host.KeepsBuiltins)
    (hscope : ∀ p ∈ Primitive.builtins, scope.sig.primitiveTypes.contains p.name = true) :
    ∃ term, e.resolve scope = .ok term ∧ m.ComesTo term (t.result.map .int) := by
  induction h with
  | int s n =>
    rw [result_int]
    exact ⟨.int n, rfl, Machine.comesTo_int n⟩
  | @neg s a e _ ih =>
    obtain ⟨term, hterm, hcomes⟩ := ih
    obtain ⟨p, hp, hoperator, harity, hrun⟩ := exists_negation
    refine ⟨.app (.prim p.name) term, resolve_op (hscope p hp) [term] hoperator ?_ s, ?_⟩
    · rw [Surface.Expr.resolveAll_cons, hterm]
      rfl
    · have hvalue :
          (a.result.map Value.int).bind (fun v => p.run [v]) = (Tree.neg a).result.map .int := by
        rw [result_neg]
        cases a.result with
        | error e => rfl
        | ok x => exact hrun x
      rw [← hvalue]
      exact Machine.ComesTo.run_one (hhost p hp) harity hcomes
  | @binary s op a b e f _ _ iha ihb =>
    obtain ⟨left, hleft, hcomes⟩ := iha
    obtain ⟨right, hright, hcomes'⟩ := ihb
    obtain ⟨p, hp, hoperator, harity, hrun⟩ := op.exists_primitive
    refine ⟨.app (.app (.prim p.name) left) right,
      resolve_op (hscope p hp) [left, right] hoperator ?_ s, ?_⟩
    · rw [Surface.Expr.resolveAll_cons, Surface.Expr.resolveAll_cons, hleft, hright]
      rfl
    · have hvalue : ((a.result.map Value.int).bind fun v => (b.result.map .int).bind fun w =>
          p.run [v, w]) =
          (Tree.binary op a b).result.map .int := by
        rw [result_binary]
        cases a.result with
        | error e => rfl
        | ok x =>
          cases b.result with
          | error e => rfl
          | ok y => exact hrun x y
      rw [← hvalue]
      exact Machine.ComesTo.run_two (hhost p hp) harity hcomes hcomes'

/-- The first divisor that is zero is reached, since those before it are not. -/
theorem Tree.dividesByZero_iff {t : Tree} : t.DividesByZero ↔ ∃ d ∈ t.divisors, d.word = 0 := by
  simp only [DividesByZero, ne_eq, ← word_eq_zero_iff]
  constructor
  · rintro ⟨before, d, after, hsplit, -, hd⟩
    exact ⟨d, hsplit ▸ List.mem_append_right before (.head after), hd⟩
  · rintro ⟨c, hc, hzero⟩
    have hsome : (t.divisors.find? (·.word = 0)).isSome :=
      List.find?_isSome.2 ⟨c, hc, decide_eq_true hzero⟩
    obtain ⟨d, hd⟩ := Option.isSome_iff_exists.1 hsome
    obtain ⟨hdzero, before, after, hsplit, hbefore⟩ := List.find?_eq_some_iff_append.1 hd
    refine ⟨before, d, after, hsplit, fun b hb => ?_, of_decide_eq_true hdzero⟩
    exact of_decide_eq_false (Bool.not_eq_true' _ ▸ hbefore b hb)

/-- Anywhere in a program, whatever is in scope, an integer expression has its value over the
unbounded integers, reduced, unless a divisor that is reached is zero: exactly then it fails. -/
theorem evaluate_arithmetic (before after : List Surface.Declaration) {host : Host}
    (hhost : host.KeepsBuiltins) {scope : Scope}
    (hscope : scope.sig = (Module.ofSurface before).toSignature) {t : Tree} {e : Surface.Expr}
    (he : t.Written e) :
    EvalError.divisionByZero.message = "division by zero" ∧
      ∃ term, e.resolve scope = .ok term ∧
        ∃ bound, ∀ globals limit env history, bound ≤ limit →
          ∃ r, ((Machine.ofModule (Module.ofSurface (before ++ after)) host).evaluate
              globals limit term env).outcome? history = some (r, history) ∧
            (¬ t.DividesByZero → ∃ n : Int64, n.toInt = wrap t.value ∧ r = .ok (.int n)) ∧
            (∀ error, r = .error error ↔ t.DividesByZero ∧ error = .divisionByZero) := by
  refine ⟨rfl, ?_⟩
  have hprimitives : ∀ p ∈ Primitive.builtins, scope.sig.primitiveTypes.contains p.name = true := by
    rw [hscope]
    exact contains_of_mem_builtins before
  obtain ⟨term, hterm, bound, hcomes⟩ :=
    he.comesTo (m := Machine.ofModule (Module.ofSurface (before ++ after)) host) hhost hprimitives
  refine ⟨term, hterm, bound, fun globals limit env history hlimit => ?_⟩
  refine ⟨_, hcomes globals limit env history hlimit, ?_⟩
  rw [t.dividesByZero_iff, Tree.result]
  split
  next hzero =>
    refine ⟨fun h => absurd hzero h, fun error => ?_⟩
    exact ⟨fun h => ⟨hzero, (Except.error.inj h).symm⟩, fun ⟨_, h⟩ => h ▸ rfl⟩
  next hzero =>
    exact ⟨fun _ => ⟨t.word, toInt_ofInt t.value, rfl⟩, fun _ => ⟨nofun, fun h => absurd h.1 hzero⟩⟩

/-- The least integer divided by `-1` is itself, also if it is an overflow: `(/ (+ max 1) -1)`. The
first divisor of `(/ 1 (* (/ 8 (* 2³² 2³²)) 0))` is zero though none of its factors is. -/
theorem evaluate_arithmetic_extremes :
    let scope : Scope := ⟨Prelude.emptyModule.toSignature, [], [], []⟩
    let m := Machine.ofModule (Module.ofSurface []) Host.standard
    let least : Surface.Expr := .op ⟨0, 0⟩ "/"
      [.op ⟨0, 0⟩ "+" [.int ⟨0, 0⟩ 9223372036854775807, .int ⟨0, 0⟩ 1], .int ⟨0, 0⟩ (-1)]
    let zero : Surface.Expr := .op ⟨0, 0⟩ "/" [.int ⟨0, 0⟩ 1, .op ⟨0, 0⟩ "*"
      [.op ⟨0, 0⟩ "/" [.int ⟨0, 0⟩ 8,
        .op ⟨0, 0⟩ "*" [.int ⟨0, 0⟩ 4294967296, .int ⟨0, 0⟩ 4294967296]], .int ⟨0, 0⟩ 0]]
    (∃ term, least.resolve scope = .ok term ∧ ∃ bound, ∀ globals limit env history, bound ≤ limit →
      (m.evaluate globals limit term env).outcome? history =
        some (.ok (.int Int64.minValue), history)) ∧
    ∃ term, zero.resolve scope = .ok term ∧ ∃ bound, ∀ globals limit env history, bound ≤ limit →
      (m.evaluate globals limit term env).outcome? history =
        some (.error .divisionByZero, history) := by
  intro scope m least zero
  constructor
  · obtain ⟨-, term, hterm, bound, hrun⟩ := evaluate_arithmetic [] [] Host.keepsBuiltins_standard
      (show scope.sig = _ from rfl)
      (.binary ⟨0, 0⟩ .div (.binary ⟨0, 0⟩ .add (.int ⟨0, 0⟩ 9223372036854775807) (.int ⟨0, 0⟩ 1))
        (.int ⟨0, 0⟩ (-1)))
    refine ⟨term, hterm, bound, fun globals limit env history hlimit => ?_⟩
    obtain ⟨r, hr, hvalue, -⟩ := hrun globals limit env history hlimit
    obtain ⟨n, hn, rfl⟩ := hvalue (by rw [Tree.dividesByZero_iff]; decide)
    have hleast : n = Int64.minValue := Int64.toInt_inj.1 (hn.trans (by decide))
    exact hleast ▸ hr
  · obtain ⟨-, term, hterm, bound, hrun⟩ := evaluate_arithmetic [] [] Host.keepsBuiltins_standard
      (show scope.sig = _ from rfl)
      (.binary ⟨0, 0⟩ .div (.int ⟨0, 0⟩ 1) (.binary ⟨0, 0⟩ .mul
        (.binary ⟨0, 0⟩ .div (.int ⟨0, 0⟩ 8)
          (.binary ⟨0, 0⟩ .mul (.int ⟨0, 0⟩ 4294967296) (.int ⟨0, 0⟩ 4294967296)))
        (.int ⟨0, 0⟩ 0)))
    refine ⟨term, hterm, bound, fun globals limit env history hlimit => ?_⟩
    obtain ⟨r, hr, -, herror⟩ := hrun globals limit env history hlimit
    obtain rfl := (herror .divisionByZero).2 ⟨by rw [Tree.dividesByZero_iff]; decide, rfl⟩
    exact hr

end Arithmetic

end PolyLambda
