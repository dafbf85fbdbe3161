import Mathlib.Data.List.Forall2
import PolyLambda.Evaluation
import PolyLambda.Proofs.Term.Mentions

/-!
# Evaluations side by side

Two machines that agree on what a program mentions evaluate it alike. What they agree on is a
parameter (`Comparison`): the same machine may be compared with itself, with one for a shorter
program, or in such a way that a function computed by a model counts as the function that returns
its argument.

The comparison is a simulation. Values are alike (`Alike`) if they are equal up to the model
functions in them, and if they are sound: bodies of functions find as many values around them as
they have variables, and mention nothing but what the machines agree on. One computation follows
another (`Follows`) if it comes to an end wherever the other does, with a result that is alike, and
the other never fails for want of a variable, a global or a primitive. This is kept by every form of
term (`follows_evaluate`), and by every definition of a program (`follows_evaluateDefinitions`).
-/

namespace PolyLambda

/-- The errors of an evaluation that finds no variable, no global or no primitive where it looks. -/
def EvalError.Dangling : EvalError → Prop
  | .unboundVariable _ | .undefinedGlobal _ | .undefinedPrimitive _ => True
  | _ => False

/-! ## Values without model functions -/

namespace Value

/-- The function that returns its argument. -/
def identity : Value := .closure [] (.var 0)

section

variable (models : String → Bool)

mutual

/-- The value with the identity in the place of each of the primitives in `models`. -/
def offline : Value → Value
  | .int value => .int value
  | .string text => .string text
  | .con name arity args => .con name arity (offlineAll args)
  | .closure env body => .closure (offlineAll env) body
  | .typeClosure env body => .typeClosure (offlineAll env) body
  | .prim name op args => if models name then identity else .prim name op (offlineAll args)

def offlineAll : List Value → List Value
  | [] => []
  | v :: vs => offline v :: offlineAll vs

end

end

variable {models : String → Bool}

theorem offlineAll_eq_map (vs : List Value) : offlineAll models vs = vs.map (offline models) := by
  induction vs with
  | nil => rfl
  | cons v vs ih => rw [offlineAll, ih, List.map_cons]

theorem offlineAll_append (vs ws : List Value) :
    offlineAll models (vs ++ ws) = offlineAll models vs ++ offlineAll models ws := by
  rw [offlineAll_eq_map, offlineAll_eq_map, offlineAll_eq_map, List.map_append]

theorem length_eq_of_offlineAll_eq {vs ws : List Value}
    (h : offlineAll models vs = offlineAll models ws) : vs.length = ws.length := by
  rw [offlineAll_eq_map, offlineAll_eq_map] at h
  simpa using congrArg List.length h

mutual

/-- Without model functions nothing is replaced. -/
theorem offline_of_no_models : (v : Value) → v.offline (fun _ => false) = v
  | .int _ => rfl
  | .string _ => rfl
  | .con name arity args => congrArg (Value.con name arity) (offlineAll_of_no_models args)
  | .closure env body => congrArg (Value.closure · body) (offlineAll_of_no_models env)
  | .typeClosure env body => congrArg (Value.typeClosure · body) (offlineAll_of_no_models env)
  | .prim name op args => congrArg (Value.prim name op) (offlineAll_of_no_models args)

theorem offlineAll_of_no_models : (vs : List Value) → offlineAll (fun _ => false) vs = vs
  | [] => rfl
  | v :: vs => by rw [offlineAll, offline_of_no_models v, offlineAll_of_no_models vs]

end

/-! What becomes of a value says how it is built, up to the functions that become the identity. -/

theorem offline_eq_int_iff {v : Value} {n : Int64} : v.offline models = .int n ↔ v = .int n := by
  cases v with
  | prim name op args =>
    rw [offline]
    split <;> exact iff_of_false nofun nofun
  | int => rfl
  | _ => exact iff_of_false nofun nofun

theorem offline_eq_string_iff {v : Value} {s : String} :
    v.offline models = .string s ↔ v = .string s := by
  cases v with
  | prim name op args =>
    rw [offline]
    split <;> exact iff_of_false nofun nofun
  | string => rfl
  | _ => exact iff_of_false nofun nofun

theorem offline_eq_con {v : Value} {name : String} {arity : Nat} {args : List Value}
    (h : v.offline models = .con name arity args) :
    ∃ args', v = .con name arity args' ∧ offlineAll models args' = args := by
  cases v with
  | con name' arity' args' =>
    obtain ⟨rfl, rfl, hargs⟩ := Value.con.inj h
    exact ⟨args', rfl, hargs⟩
  | prim name' op' args' =>
    rw [offline] at h
    split at h <;> cases h
  | _ => cases h

theorem offline_eq_closure {v : Value} {env : List Value} {body : Term}
    (hid : (∃ name, models name = true) → v.offline models ≠ identity)
    (h : v.offline models = .closure env body) :
    ∃ env', v = .closure env' body ∧ offlineAll models env' = env := by
  cases v with
  | closure env' body' =>
    obtain ⟨henv, rfl⟩ := Value.closure.inj h
    exact ⟨env', rfl, henv⟩
  | prim name op args =>
    rw [offline] at h hid
    split at h
    next hname => exact absurd (if_pos hname) (hid ⟨name, hname⟩)
    next => cases h
  | _ => cases h

theorem offline_eq_typeClosure {v : Value} {env : List Value} {body : Term}
    (h : v.offline models = .typeClosure env body) :
    ∃ env', v = .typeClosure env' body ∧ offlineAll models env' = env := by
  cases v with
  | typeClosure env' body' =>
    obtain ⟨henv, rfl⟩ := Value.typeClosure.inj h
    exact ⟨env', rfl, henv⟩
  | prim name op args =>
    rw [offline] at h
    split at h <;> cases h
  | _ => cases h

theorem offline_eq_prim {v : Value} {name : String} {op : Operation} {args : List Value}
    (h : v.offline models = .prim name op args) :
    ∃ args', v = .prim name op args' ∧ offlineAll models args' = args := by
  cases v with
  | prim name' op' args' =>
    rw [offline] at h
    split at h
    next => cases h
    next =>
      obtain ⟨rfl, rfl, hargs⟩ := Value.prim.inj h
      exact ⟨args', rfl, hargs⟩
  | _ => cases h

end Value

/-! ## Values that are alike -/

/-- Two machines to be compared: which primitives count as the identity, what the terms to be
evaluated may mention, and which histories of calls of the model correspond. -/
structure Comparison where
  left : Machine
  right : Machine
  models : String → Bool
  allowed : Mention → Prop
  histories : History → History → Prop

namespace Comparison

/-- Whether a primitive stands for the operation `op` on both sides. -/
def StandsFor (c : Comparison) (name : String) (op : Operation) : Prop :=
  c.left.operation name = .ok op ∧ c.right.operation name = .ok op

/-- Whether the functions in a value have around them what their bodies use, where the globals in
`names` have been evaluated. -/
inductive Sound (c : Comparison) (names : List String) : Value → Prop
  | int (value : Int64) : Sound c names (.int value)
  | string (text : String) : Sound c names (.string text)
  | con (name : String) (arity : Nat) {args : List Value} (hargs : ∀ v ∈ args, Sound c names v) :
    Sound c names (.con name arity args)
  | closure {env : List Value} {body : Term} (henv : ∀ v ∈ env, Sound c names v)
    (hbody : body.Within c.allowed names (env.length + 1)) : Sound c names (.closure env body)
  | typeClosure {env : List Value} {body : Term} (henv : ∀ v ∈ env, Sound c names v)
    (hbody : body.Within c.allowed names env.length) : Sound c names (.typeClosure env body)
  | prim {name : String} {op : Operation} {args : List Value} (hname : c.StandsFor name op)
    (hlength : args.length < op.arity) (hargs : ∀ v ∈ args, Sound c names v) :
    Sound c names (.prim name op args)

/-- Whether two values are sound and differ at most by model functions. -/
structure Alike (c : Comparison) (names : List String) (v v' : Value) : Prop where
  same : v.offline c.models = v'.offline c.models
  left : c.Sound names v
  right : c.Sound names v'

structure AllAlike (c : Comparison) (names : List String) (vs vs' : List Value) : Prop where
  same : Value.offlineAll c.models vs = Value.offlineAll c.models vs'
  left : ∀ v ∈ vs, c.Sound names v
  right : ∀ v ∈ vs', c.Sound names v

/-- How values that are alike are built, unless both count as the identity. -/
inductive Built (c : Comparison) (names : List String) : Value → Value → Prop
  | int (value : Int64) : Built c names (.int value) (.int value)
  | string (text : String) : Built c names (.string text) (.string text)
  | con (name : String) (arity : Nat) {args args' : List Value}
      (hargs : c.AllAlike names args args') :
    Built c names (.con name arity args) (.con name arity args')
  | closure {env env' : List Value} {body : Term} (henv : c.AllAlike names env env')
    (hbody : body.Within c.allowed names (env.length + 1)) :
    Built c names (.closure env body) (.closure env' body)
  | typeClosure {env env' : List Value} {body : Term} (henv : c.AllAlike names env env')
    (hbody : body.Within c.allowed names env.length) :
    Built c names (.typeClosure env body) (.typeClosure env' body)
  | prim {name : String} {op : Operation} {args args' : List Value} (hname : c.StandsFor name op)
    (hlength : args.length < op.arity) (hargs : c.AllAlike names args args') :
    Built c names (.prim name op args) (.prim name op args')

variable {c : Comparison} {names names' : List String}

theorem Sound.mono (hnames : names ⊆ names') {v : Value} (h : c.Sound names v) :
    c.Sound names' v := by
  induction h with
  | int value => exact .int value
  | string text => exact .string text
  | con name arity _ ih => exact .con name arity ih
  | closure _ hbody ih => exact .closure ih (hbody.mono hnames _ fun _ _ => id)
  | typeClosure _ hbody ih => exact .typeClosure ih (hbody.mono hnames _ fun _ _ => id)
  | prim hname hlength _ ih => exact .prim hname hlength ih

theorem Alike.mono (hnames : names ⊆ names') {v v' : Value} (h : c.Alike names v v') :
    c.Alike names' v v' :=
  ⟨h.same, h.left.mono hnames, h.right.mono hnames⟩

theorem Alike.refl {v : Value} (h : c.Sound names v) : c.Alike names v v :=
  ⟨rfl, h, h⟩

theorem AllAlike.refl {vs : List Value} (h : ∀ v ∈ vs, c.Sound names v) : c.AllAlike names vs vs :=
  ⟨rfl, h, h⟩

theorem allAlike_nil : c.AllAlike names [] [] :=
  .refl nofun

theorem Alike.cons {v v' : Value} {vs vs' : List Value} (hv : c.Alike names v v')
    (hvs : c.AllAlike names vs vs') : c.AllAlike names (v :: vs) (v' :: vs') where
  same := congrArg₂ List.cons hv.same hvs.same
  left := List.forall_mem_cons.2 ⟨hv.left, hvs.left⟩
  right := List.forall_mem_cons.2 ⟨hv.right, hvs.right⟩

theorem AllAlike.append {vs vs' ws ws' : List Value} (hvs : c.AllAlike names vs vs')
    (hws : c.AllAlike names ws ws') : c.AllAlike names (vs ++ ws) (vs' ++ ws') where
  same := by rw [Value.offlineAll_append, Value.offlineAll_append, hvs.same, hws.same]
  left := List.forall_mem_append.2 ⟨hvs.left, hws.left⟩
  right := List.forall_mem_append.2 ⟨hvs.right, hws.right⟩

theorem AllAlike.length_eq {vs vs' : List Value} (h : c.AllAlike names vs vs') :
    vs.length = vs'.length :=
  Value.length_eq_of_offlineAll_eq h.same

theorem AllAlike.of_cons {v : Value} {vs vs' : List Value} (h : c.AllAlike names (v :: vs) vs') :
    ∃ w ws, vs' = w :: ws ∧ c.Alike names v w ∧ c.AllAlike names vs ws := by
  cases vs' with
  | nil => cases h.same
  | cons w ws =>
    obtain ⟨hsame, hsames⟩ := List.cons_eq_cons.1 h.same
    obtain ⟨hv, hvs⟩ := List.forall_mem_cons.1 h.left
    obtain ⟨hw, hws⟩ := List.forall_mem_cons.1 h.right
    exact ⟨w, ws, rfl, ⟨hsame, hv, hw⟩, ⟨hsames, hvs, hws⟩⟩

/-- Where nothing counts as the identity, values that are alike are equal. -/
theorem Alike.eq (hmodels : ∀ name, c.models name = false) {v v' : Value}
    (h : c.Alike names v v') : v = v' := by
  have hsame := h.same
  rwa [funext hmodels, Value.offline_of_no_models, Value.offline_of_no_models] at hsame

theorem AllAlike.eq (hmodels : ∀ name, c.models name = false) {vs vs' : List Value}
    (h : c.AllAlike names vs vs') : vs = vs' := by
  have hsame := h.same
  rwa [funext hmodels, Value.offlineAll_of_no_models, Value.offlineAll_of_no_models] at hsame

/-- Where there is a value on one side there is one on the other, and the two are alike. -/
theorem AllAlike.exists_getElem? {vs vs' : List Value} {index : Nat} (h : c.AllAlike names vs vs')
    (hindex : index < vs.length) :
    ∃ v v', vs[index]? = some v ∧ vs'[index]? = some v' ∧ c.Alike names v v' := by
  induction vs generalizing vs' index with
  | nil => cases hindex
  | cons v vs ih =>
    obtain ⟨w, ws, rfl, hv, hvs⟩ := h.of_cons
    cases index with
    | zero => exact ⟨v, w, rfl, rfl, hv⟩
    | succ index => exact ih hvs (Nat.lt_of_succ_lt_succ hindex)

/-- Values that are alike are built alike, or both count as the identity. -/
theorem Alike.built_or_identity {v v' : Value} (h : c.Alike names v v') :
    c.Built names v v' ∨ ((∃ name, c.models name = true) ∧
      v.offline c.models = .identity ∧ v'.offline c.models = .identity) := by
  obtain ⟨same, left, right⟩ := h
  by_cases hid : (∃ name, c.models name = true) ∧ v'.offline c.models = .identity
  · exact .inr ⟨hid.1, same.trans hid.2, hid.2⟩
  · rw [not_and] at hid
    left
    cases left with
    | int value =>
      obtain rfl := Value.offline_eq_int_iff.1 same.symm
      exact .int value
    | string text =>
      obtain rfl := Value.offline_eq_string_iff.1 same.symm
      exact .string text
    | con name arity hargs =>
      obtain ⟨args', rfl, hsame⟩ := Value.offline_eq_con same.symm
      cases right with
      | con _ _ hargs' => exact .con name arity ⟨hsame.symm, hargs, hargs'⟩
    | closure henv hbody =>
      obtain ⟨env', rfl, hsame⟩ := Value.offline_eq_closure hid same.symm
      cases right with
      | closure henv' => exact .closure ⟨hsame.symm, henv, henv'⟩ hbody
    | typeClosure henv hbody =>
      obtain ⟨env', rfl, hsame⟩ := Value.offline_eq_typeClosure same.symm
      cases right with
      | typeClosure henv' => exact .typeClosure ⟨hsame.symm, henv, henv'⟩ hbody
    | @prim name op args hname hlength hargs =>
      have hkept : (Value.prim name op args).offline c.models =
          .prim name op (Value.offlineAll c.models args) := by
        refine if_neg fun hmodel => hid ⟨name, hmodel⟩ ?_
        rw [← same, Value.offline, if_pos hmodel]
      obtain ⟨args', rfl, hsame⟩ := Value.offline_eq_prim (same.symm.trans hkept)
      cases right with
      | prim _ _ hargs' => exact .prim hname hlength ⟨hsame.symm, hargs, hargs'⟩

theorem Built.alike {v v' : Value} (h : c.Built names v v') : c.Alike names v v' := by
  cases h with
  | int value => exact .refl (.int value)
  | string text => exact .refl (.string text)
  | con name arity hargs =>
    exact ⟨congrArg (Value.con name arity) hargs.same, .con name arity hargs.left,
      .con name arity hargs.right⟩
  | @closure env env' body henv hbody =>
    refine ⟨congrArg (Value.closure · body) henv.same, .closure henv.left hbody,
      .closure henv.right ?_⟩
    rwa [← henv.length_eq]
  | @typeClosure env env' body henv hbody =>
    refine ⟨congrArg (Value.typeClosure · body) henv.same, .typeClosure henv.left hbody,
      .typeClosure henv.right ?_⟩
    rwa [← henv.length_eq]
  | @prim name op args args' hname hlength hargs =>
    refine ⟨?_, .prim hname hlength hargs.left, .prim hname ?_ hargs.right⟩
    · rw [Value.offline, Value.offline, hargs.same]
    · rwa [← hargs.length_eq]

/-! ## Computations that follow each other -/

/-- Whether two results correspond: both are values that `R` relates, or both are errors, of which
the first is not for want of something. -/
def Ends {α β : Type} (R : α → β → Prop) : Except EvalError α → Except EvalError β → Prop
  | .ok a, .ok b => R a b
  | .error e, .error _ => ¬ e.Dangling
  | _, _ => False

theorem ends_self {α : Type} {r : Except EvalError α} (h : ∀ e, r = .error e → ¬ e.Dangling) :
    Ends Eq r r := by
  cases r with
  | error e => exact h e rfl
  | ok a => rfl

section

variable {α β : Type} {R S : α → β → Prop} {r : Except EvalError α} {r' : Except EvalError β}

/-- Results that correspond are of the same kind. -/
theorem Ends.ok_or_error (h : Ends R r r') :
    (∃ a b, r = .ok a ∧ r' = .ok b ∧ R a b) ∨
      ∃ e e', r = .error e ∧ r' = .error e' ∧ ¬ e.Dangling := by
  cases r with
  | error e =>
    cases r' with
    | error e' => exact .inr ⟨e, e', rfl, rfl, h⟩
    | ok b => exact h.elim
  | ok a =>
    cases r' with
    | error e' => exact h.elim
    | ok b => exact .inl ⟨a, b, rfl, rfl, h⟩

theorem Ends.mono (h : Ends R r r') (hRS : ∀ a b, R a b → S a b) : Ends S r r' := by
  rcases h.ok_or_error with ⟨a, b, rfl, rfl, hab⟩ | ⟨e, e', rfl, rfl, he⟩
  · exact hRS a b hab
  · exact he

/-- Values that correspond are those that there are. -/
theorem Ends.results (h : Ends R r r') :
    Ends (fun a b => R a b ∧ r = .ok a ∧ r' = .ok b) r r' := by
  rcases h.ok_or_error with ⟨a, b, rfl, rfl, hab⟩ | ⟨e, e', rfl, rfl, he⟩
  · exact ⟨hab, rfl, rfl⟩
  · exact he

end

/-- Whether `y` comes to a corresponding end wherever `x` comes to one. -/
def Follows {α β : Type} (c : Comparison) (R : α → β → Prop) (x : Eval α) (y : Eval β) : Prop :=
  ∀ history history', c.histories history history' →
    ∀ r after, x.outcome? history = some (r, after) →
      ∃ r' after', y.outcome? history' = some (r', after') ∧ c.histories after after' ∧ Ends R r r'

section

variable {α β γ δ : Type} {R : α → β → Prop} {S : γ → δ → Prop}

theorem follows_exhausted {y : Eval β} :
    c.Follows R (LimitedState.exhausted : Eval α) y := nofun

theorem follows_pure {a : α} {b : β} (h : R a b) : c.Follows R (pure a) (pure b) := by
  rintro history history' hhistories r after ⟨⟩
  exact ⟨.ok b, history', rfl, hhistories, h⟩

theorem follows_throw {e : EvalError} (e' : EvalError) (h : ¬ e.Dangling) :
    c.Follows R (throw e : Eval α) (throw e' : Eval β) := by
  rintro history history' hhistories r after ⟨⟩
  exact ⟨.error e', history', rfl, hhistories, h⟩

theorem follows_liftM {r : Except EvalError α} {r' : Except EvalError β} (h : Ends R r r') :
    c.Follows R (liftM r : Eval α) (liftM r' : Eval β) := by
  intro history history' hhistories r₁ after houtcome
  rw [LimitedState.outcome?_liftM] at houtcome
  cases houtcome
  exact ⟨r', history', LimitedState.outcome?_liftM history' r', hhistories, h⟩

theorem Follows.bind {x : Eval α} {y : Eval β} {f : α → Eval γ} {g : β → Eval δ}
    (h : c.Follows R x y) (hf : ∀ a b, R a b → c.Follows S (f a) (g b)) :
    c.Follows S (x >>= f) (y >>= g) := by
  intro history history' hhistories r after houtcome
  rw [LimitedState.outcome?_bind] at houtcome
  rw [LimitedState.outcome?_bind]
  cases hx : x.outcome? history with
  | none =>
    rw [hx] at houtcome
    cases houtcome
  | some o =>
    obtain ⟨r₁, after₁⟩ := o
    obtain ⟨r₁', after₁', hy, hafter, hends⟩ := h history history' hhistories r₁ after₁ hx
    rw [hx] at houtcome
    rw [hy]
    rcases hends.ok_or_error with ⟨a, b, rfl, rfl, hab⟩ | ⟨e, e', rfl, rfl, he⟩
    · exact hf a b hab after₁ after₁' hafter r after houtcome
    · cases houtcome
      exact ⟨.error e', after₁', rfl, hafter, he⟩

end

/-- Whether a computation has the result `a`, whatever was asked before. -/
def Gives {α : Type} (a : α) (x : Eval α) : Prop :=
  ∀ history, ∃ after, x.outcome? history = some (.ok a, after)

theorem Gives.follows {α β : Type} {R : α → β → Prop} {x : Eval α} {y : Eval β} {a : α} {b : β}
    (hhistories : ∀ history history', c.histories history history') (hx : Gives a x)
    (hy : Gives b y) (h : R a b) : c.Follows R x y := by
  intro history history' _ r after houtcome
  obtain ⟨after₁, hx⟩ := hx history
  rw [hx] at houtcome
  cases houtcome
  obtain ⟨after', hy⟩ := hy history'
  exact ⟨.ok b, after', hy, hhistories _ _, h⟩

end Comparison

end PolyLambda
