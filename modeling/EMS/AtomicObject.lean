import EMS.Interleaving

/-!
# Atomic objects

An object whose operations take effect at one instant between their call and
their return.  An implementation is linearizable when what is visible of each
of its runs is a run of the object.
-/

namespace AtomicObject

variable {ι A Op Res : Type}

/-- Where a process is in its current call. -/
inductive Phase (Op Res : Type) where
  | idle
  | pending (op : Op)
  | done (op : Op) (res : Res)

/-- The object, and the calls in progress. -/
@[ext] structure State (ι A Op Res : Type) where
  object : A
  phase : ι → Phase Op Res

inductive Event (Op Res : Type) where
  | call (op : Op)
  | commit
  | ret (op : Op) (res : Res)

variable [DecidableEq ι]

def State.setPhase (state : State ι A Op Res) (p : ι) (phase : Phase Op Res) :
    State ι A Op Res :=
  { state with phase := Function.update state.phase p phase }

/-- An operation takes effect when it commits, which it does once between its
call and its return. -/
inductive Step (effect : Op → A → A → Res → Prop) :
    State ι A Op Res → ι × Event Op Res → State ι A Op Res → Prop where
  | call {state : State ι A Op Res} {p : ι} (op : Op) :
      state.phase p = .idle →
        Step effect state (p, .call op) (state.setPhase p (.pending op))
  | commit {state : State ι A Op Res} {p : ι} {op : Op} {next : A} {res : Res} :
      state.phase p = .pending op → effect op state.object next res →
      Step effect state (p, .commit)
        ({ state with object := next }.setPhase p (.done op res))
  | ret {state : State ι A Op Res} {p : ι} {op : Op} {res : Res} :
      state.phase p = .done op res →
      Step effect state (p, .ret op res) (state.setPhase p .idle)

/-- The object before any call. -/
def initial (object : A) : State ι A Op Res := ⟨object, fun _ => .idle⟩

@[simp] theorem State.setPhase_object (state : State ι A Op Res) (p : ι)
    (phase : Phase Op Res) :
    (state.setPhase p phase).object = state.object := rfl

@[simp] theorem State.setPhase_same (state : State ι A Op Res) (p : ι)
    (phase : Phase Op Res) : (state.setPhase p phase).phase p = phase := by
  simp [State.setPhase]

theorem State.setPhase_other (state : State ι A Op Res) {p q : ι}
    (different : p ≠ q)
    (phase : Phase Op Res) :
    (state.setPhase q phase).phase p = state.phase p := by
  simp [State.setPhase, different]

@[simp] theorem State.setPhase_setPhase (state : State ι A Op Res) (p : ι)
    (first second : Phase Op Res) :
    (state.setPhase p first).setPhase p second = state.setPhase p second := by
  simp [State.setPhase]

end AtomicObject
