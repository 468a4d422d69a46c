import GeminiDB.Data.Represents
import GeminiDB.Proc.Queue

/-!
# Handlers over the interface of the database (`proc_kv.cpp`, `proc_queue.cpp`)

Each handler is a program over the functions of `GEMINIDB`. Those that were given
before by their accesses are what these programs expand to. The response is `none`
when a handler writes beyond an array.
-/

namespace GeminiDB

open Program

/-- `reply_bool` without an error message. -/
def Response.replyBool (resp : Response) (status : Int) : Response :=
  if status = -1 then resp ++ [ascii "error"]
  else if status = 0 then resp ++ [ascii "ok", ascii "0"]
  else resp ++ [ascii "ok", ascii "1"]

/-- `CHECK_NUM_PARAMS(n)` in front of a handler. -/
def checkParams (n : ℕ) (req : Request) (body : Api (Option Response)) : Api (Option Response) :=
  if req.length < n then return some wrongNumber else body

namespace Api

/-! ## Plain keys -/

def procGet (req : Request) : Api (Option Response) := checkParams 2 req <|
  .call (.get (req.arg 1)) fun r ↦ return some (Response.replyGet [] r.1 r.2)

def procSet (req : Request) : Api (Option Response) := checkParams 3 req <|
  .call (.mutate (.set (req.arg 1) (req.arg 2))) fun r ↦
    return some (if r.1 = -1 then [ascii "error"] else [ascii "ok", ascii "1"])

def procDel (req : Request) : Api (Option Response) := checkParams 2 req <|
  .call (.mutate (.del (req.arg 1))) fun r ↦
    return some (if r.1 = -1 then [ascii "error"] else [ascii "ok", ascii "1"])

def procExists (req : Request) : Api (Option Response) := checkParams 2 req <|
  .call (.get (req.arg 1)) fun r ↦ return some (Response.replyBool [] r.1)

/-- The loop of `proc_multi_exists`. -/
def multiExistsLoop : List Bytes → Response → Api (Option Response)
  | [], resp => return some resp
  | key :: rest, resp => .call (.get key) fun r ↦
      multiExistsLoop rest
        (resp ++ [key, if r.1 = 1 then ascii "1" else if r.1 = 0 then ascii "0" else ascii "0"])

def procMultiExists (req : Request) : Api (Option Response) := checkParams 2 req <|
  multiExistsLoop (req.drop 1) [ascii "ok"]

/-- The loop of `proc_multi_get`. -/
def multiGetLoop : List Bytes → Response → Api (Option Response)
  | [], resp => return some resp
  | key :: rest, resp => .call (.get key) fun r ↦
      multiGetLoop rest (if r.1 = 1 then resp ++ [key, r.2] else resp)

def procMultiGet (req : Request) : Api (Option Response) := checkParams 2 req <|
  multiGetLoop (req.drop 1) [ascii "ok"]

def procMultiSet (req : Request) : Api (Option Response) :=
  if req.length < 3 ∨ req.length % 2 ≠ 1 then return some [ascii "client_error"]
  else .call (.mutate (.multiSet req 1)) fun r ↦ return some (Response.replyInt [] 0 r.1)

def procMultiDel (req : Request) : Api (Option Response) := checkParams 2 req <|
  .call (.mutate (.multiDel req 1)) fun r ↦
    return some (if r.1 = -1 then [ascii "error"] else Response.replyInt [] 0 r.1)

/-! ## Queues -/

def procQsize (req : Request) : Api (Option Response) := checkParams 2 req <|
  .call (.qsize (req.arg 1)) fun r ↦ return Response.replyIntAdd [] (int32 r.1) r.1

def procQfront (req : Request) : Api (Option Response) := checkParams 2 req <|
  .call (.qfront (req.arg 1) []) fun r ↦ return some (Response.replyGet [] r.1 r.2)

def procQback (req : Request) : Api (Option Response) := checkParams 2 req <|
  .call (.qback (req.arg 1) []) fun r ↦ return some (Response.replyGet [] r.1 r.2)

/-- A handler made of mutating calls. -/
def ofHandler (h : Handler Response) : Api (Option Response) :=
  h.expand (fun m ↦ .call (.mutate m) .ret) >>= fun resp ↦ .ret (some resp)

def procQpush (req : Request) : Api (Option Response) := ofHandler (GeminiDB.procQpush req)

def procQpushFront (req : Request) : Api (Option Response) :=
  ofHandler (GeminiDB.procQpushFront req)

def procQpushBack (req : Request) : Api (Option Response) :=
  ofHandler (GeminiDB.procQpushBack req)

def procQpop (req : Request) : Api (Option Response) := ofHandler (GeminiDB.procQpop req)

def procQpopFront (req : Request) : Api (Option Response) :=
  ofHandler (GeminiDB.procQpopFront req)

def procQpopBack (req : Request) : Api (Option Response) :=
  ofHandler (GeminiDB.procQpopBack req)

end Api

/-! ## The handlers as accesses -/

/-- What a thread executes for a handler. -/
def body (p : Api (Option Response)) : Body (Option Response) := p.expand ApiCall.body

/-- The same, moment by moment. -/
def moments (p : Api (Option Response)) : Prog Moment Moment.Result (Option Response) :=
  p.expand ApiCall.moments

theorem expand_moments (p : Api (Option Response)) :
    (moments p).expand Moment.body = body p := by
  rw [moments, Prog.expand_expand, body]
  exact congrArg (Prog.expand · p) (funext ApiCall.expand_moments)

end GeminiDB
