import WebServer.Lib.Runs
import WebServer.Http.RequestParser
import WebServer.Http.Reply

/-!
# Request handlers, seen from the session

The abstract class `RequestHandler`, the statics of `RequestHandlerDispatcher` that the session and the
handlers share, and the ways in which the code can fail to return.
-/

namespace WebServer

/-- How a call can end without returning. -/
inductive Fault
  /-- `std::out_of_range`, which nothing on the way out catches. -/
  | outOfRange
  /-- A write past the end of an array. -/
  | bufferOverflow
  /-- A null pointer is dereferenced. -/
  | nullPointer
  /-- A vector or a string is indexed past its end. -/
  | indexOutOfBounds
  /-- `HandleRequest` throws, or waits for ever. -/
  | handlerFailed
  /-- The recursion has used up the stack. -/
  | stackOverflow
  deriving DecidableEq, Repr

/-- The statics of `RequestHandlerDispatcher`. -/
structure Statics where
  requestHandlerUri : Lib.OrdMap Bytes Bytes
  requestCodeReceived : Lib.OrdMap Bytes (List StatusCode)
  numHandlers : Nat
  numRequests : Nat
  deriving DecidableEq

namespace Statics

def initial : Statics := ⟨Lib.OrdMap.empty, Lib.OrdMap.empty, 0, 0⟩

/-- `request_code_received_[uri].push_back(code)`. -/
def recordCode (st : Statics) (uri : Bytes) (code : StatusCode) : Statics :=
  let codes := (st.requestCodeReceived.find? uri).getD []
  { st with requestCodeReceived := st.requestCodeReceived.insert uri (codes ++ [code]) }

end Statics

/-- The abstract class `RequestHandler`. `handleRequest` may read and write the statics. -/
structure RequestHandler where
  name : Bytes
  handleRequest : Request → Statics → Except Fault (Reply × Statics)

/-- The virtual `RequestHandlerDispatcher::dispatch`; `none` is the null pointer. -/
abbrev Dispatch := Request → Option RequestHandler

end WebServer
