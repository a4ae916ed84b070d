import AvroDocument.Failure

/-!
# AvroDocument.Feed

Sequences that are pulled item by item. On the way to the next item warnings may be given, and a
failure ends the sequence.

* `Feed.take`: what a reader sees who stops after a number of items.
-/

namespace AvroDocument

/-- A step of a sequence. -/
inductive Pulled (α : Type) where
  | item (a : α)
  | warning (text : String)

/-- A sequence: its steps, and the failure after the last one. -/
structure Feed (α : Type) where
  steps : List (Pulled α)
  failure : Option Failure

namespace Feed

variable {α β : Type}

def empty : Feed α := ⟨[], none⟩

def fail (failure : Failure) : Feed α := ⟨[], some failure⟩

def cons (a : α) (feed : Feed α) : Feed α := ⟨.item a :: feed.steps, feed.failure⟩

def warn (text : String) (feed : Feed α) : Feed α := ⟨.warning text :: feed.steps, feed.failure⟩

def ofList (items : List α) : Feed α := ⟨items.map .item, none⟩

/-- One sequence behind another. -/
def append (first second : Feed α) : Feed α :=
  match first.failure with
  | some _ => first
  | none => ⟨first.steps ++ second.steps, second.failure⟩

def itemsOf : List (Pulled α) → List α
  | [] => []
  | .item a :: steps => a :: itemsOf steps
  | .warning _ :: steps => itemsOf steps

def warningsOf : List (Pulled α) → List String
  | [] => []
  | .item _ :: steps => warningsOf steps
  | .warning text :: steps => text :: warningsOf steps

/-- The items of a sequence. -/
def items (feed : Feed α) : List α := itemsOf feed.steps

/-- The warnings of a sequence. -/
def warnings (feed : Feed α) : List String := warningsOf feed.steps

/-- The steps up to an item with a number, if there are so many items. -/
def takeSteps : Nat → List (Pulled α) → Option (List (Pulled α))
  | 0, _ => some []
  | _ + 1, [] => none
  | n + 1, .item a :: steps => (takeSteps n steps).map (.item a :: ·)
  | n + 1, .warning text :: steps => (takeSteps (n + 1) steps).map (.warning text :: ·)

/-- The sequence up to a number of items; what would come behind them is not reached. -/
def take (n : Nat) (feed : Feed α) : Feed α :=
  match takeSteps n feed.steps with
  | some steps => ⟨steps, none⟩
  | none => feed

/-- Does something to each item; a failure of one ends the sequence. -/
def mapSteps (f : α → Except Failure β) (failure : Option Failure) : List (Pulled α) → Feed β
  | [] => ⟨[], failure⟩
  | .warning text :: steps => (mapSteps f failure steps).warn text
  | .item a :: steps =>
    match f a with
    | .error e => fail e
    | .ok b => (mapSteps f failure steps).cons b

def mapItems (f : α → Except Failure β) (feed : Feed α) : Feed β :=
  mapSteps f feed.failure feed.steps

end Feed
end AvroDocument
