import Lox.Proofs.Run.Creation

/-!
The values of a run: those that names are bound to and fields have, those that tasks are given, and
those that they yield. A function that is created is a value when its task has ended.
-/

namespace Lox

open Run

inductive Machine.Contains (machine : Machine) (value : Value) : Prop
  | bound {ref name} : machine.scopes.lookUp? ref name = some value → Contains machine value
  | field {inst name} : machine.field? inst name = some value → Contains machine value

namespace Task

def operands : Task → List Value
  | call _ function _ arguments => function :: arguments
  | invoke _ callee arguments => .callable callee :: arguments
  | invokeFunction _ _ arguments => arguments
  | _ => []

def yields : (task : Task) → task.Result → List Value
  | evaluate _ _, value | evaluateOr _ _, value | call _ _ _ _, value | invoke _ _ _, value
  | invokeFunction _ _ _, value => [value]
  | evaluateAll _ _, values => values
  | execute _ _, flow | executeAll _ _, flow | repeatWhile _ _ _, flow =>
      match flow with
      | .normal => []
      | .returned value => [value]
  | bindMethod _ _, _ | declareClass _ _ _, _ | executeProgram _ _, _ => []

/-- The value is there when the task begins or when it ends. -/
inductive Meets (task : Task) (machine : Machine) (value : Value) : Prop
  | given : value ∈ task.operands → Meets task machine value
  | found : machine.Contains value → Meets task machine value
  | yielded {result after} : task.run machine = .ok result after → value ∈ task.yields result →
      Meets task machine value
  | left : (task.run.final machine).Contains value → Meets task machine value

end Task

theorem Creates.meets {task : Task} {machine : Machine} {closure : Closure}
    (creates : Creates task machine closure) (settled : Settled task machine) :
    task.Meets machine (.function closure) := by
  have retrieved (method : Closure) (inst : Instance) (later : Machine) :
      ∃ after, (bindMethod method inst >>= fun bound => pure (Value.function bound)) later =
        .ok (.function (method.boundIn later)) after := ⟨_, rfl⟩
  cases creates with
  | @declared fuel decl =>
      obtain ⟨ref, first, lt⟩ := settled.opened
      obtain ⟨outer, env⟩ := List.head?_eq_some_iff.mp first
      have bound := machine.scopes.lookUp?_define ref outer decl.name.lexeme
        (.function ⟨decl, machine.env, false⟩) ref decl.name.lexeme
      rw [if_pos ⟨rfl, rfl, lt⟩, ← env] at bound
      exact .left (.bound bound)
  | @property _ object name _ method inst later step =>
      cases step with
      | @getMethod fuel _ _ _ _ _ _ ended absent found =>
          obtain ⟨after, bound⟩ := retrieved method inst later
          have ran : evaluate (fuel + 1) (.get object name) machine =
              .ok (.function (method.boundIn later)) after := by
            rw [← bound, ← getProperty_method absent found]
            unfold evaluate
            simp only [Bind.bind, EStateM.bind, ended]
          exact .yielded ran List.mem_cons_self
  | @inherited _ id keyword name _ method inst _ step =>
      cases step with
      | @superMethod fuel _ _ _ _ _ _ _ _ recorded parent receiver found =>
          obtain ⟨after, bound⟩ := retrieved method inst machine
          have inherited := readSuper_eq keyword name recorded parent receiver
          rw [found] at inherited
          have ran : evaluate (fuel + 1) (.super id keyword name) machine =
              .ok (.function (method.boundIn machine)) after := inherited.trans bound
          exact .yielded ran List.mem_cons_self

end Lox
