import Less.Error
import Less.Text.Bytes

/-!
# Reports of diagnostics

The stages of a compilation hand their diagnostics to a handler, which counts them and may put a context, such as the
name of a file, in front of each message.

* **`Collector`** keeps the messages and the errors.
* **`LineLog`** writes one message a line.
-/

namespace Less

/-- A receiver of diagnostics. -/
class Handler (σ : Type) where
  /-- Takes a message and the error it stems from, if any. -/
  handle : σ → String → Option Error → σ
  /-- The number of messages taken so far. -/
  count : σ → Nat
  /-- Sets the text in front of the messages that follow. -/
  setContext : σ → Option String → σ
  /-- The text in front of messages. -/
  context : σ → Option String

namespace Handler

/-- Reports an error by its message. -/
def report {σ : Type} [Handler σ] (h : σ) (e : Error) : σ :=
  handle h e.message (some e)

/-- Reports errors in order. -/
def reportAll {σ : Type} [Handler σ] (h : σ) (es : List Error) : σ :=
  es.foldl report h

/-- A message with the context in front; an empty context is none. -/
def withContext (context : Option String) (message : String) : String :=
  match context with
  | some context => if context = "" then message else context ++ " " ++ message
  | none => message

end Handler

/-- A handler that keeps messages and errors. -/
structure Collector where
  context : Option String := none
  messages : List String := []
  errors : List Error := []

instance : Handler Collector where
  handle h message cause :=
    { h with
      messages := h.messages ++ [Handler.withContext h.context message]
      errors := h.errors ++ cause.toList }
  count h := h.messages.length
  setContext h context := { h with context }
  context h := h.context

/-- A handler that writes lines. -/
structure LineLog where
  context : Option String := none
  count : Nat := 0
  text : String := ""

instance : Handler LineLog where
  handle h message _ :=
    { h with count := h.count + 1, text := h.text ++ Handler.withContext h.context message ++ "\n" }
  count h := h.count
  setContext h context := { h with context }
  context h := h.context

/-- A place for text that may hold a limited number of bytes. -/
structure Output where
  capacity : Option Nat := none

namespace Output

/-- The part of a text that fits. -/
def fit (o : Output) (text : String) : String :=
  match o.capacity with
  | none => text
  | some n => String.ofList (Text.takeBytes n text.toList)

/-- The whole text fits. -/
def fits (o : Output) (text : String) : Bool :=
  match o.capacity with
  | none => true
  | some n => Text.byteCount text.toList ≤ n

end Output

end Less
