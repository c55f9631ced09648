import Libcircle.Model.Tree

/-!
# The termination token

The ring functions of `token.c`.  `CIRCLE_token_issend` posts a synchronous
send, so `token_send_req` completes exactly when the message has been received.
A later send replaces the request, so the pending request is that of the last
message sent, and it is complete when the channel to the next rank is empty.
-/

namespace Libcircle

/-- `WHITE`, `BLACK` and `TERMINATE`: the colour of a process or of the token. -/
inductive Colour where
  | white
  | black
  | terminate
deriving DecidableEq, Repr

/-- The token fields of a rank. -/
structure Token where
  /-- `token_is_local`. -/
  tokenIsLocal : Bool := false
  /-- `token_proc`. -/
  tokenProc : Colour := .white
  /-- `token_buf`. -/
  tokenBuf : Colour := .black
  /-- `token_send_req` is not `MPI_REQUEST_NULL`. -/
  tokenSendReq : Bool := false
deriving DecidableEq, Repr

/-- The token state of all ranks and the tag `CIRCLE_TAG_TOKEN`. -/
structure TokenNet where
  /-- The state of a rank. -/
  st : Rank → Token
  /-- `CIRCLE_TAG_TOKEN`. -/
  net : Chan Rank Colour

/-- `token_src`. -/
def tokenSrc (size rank : Nat) : Rank := (rank + size - 1) % size

/-- `token_dest`. -/
def tokenDest (size rank : Nat) : Rank := (rank + 1 + size) % size

namespace TokenNet

variable (x : TokenNet) (size : Nat) (abortFlag : Bool) (r : Rank)

/-- Replace the state of `r`. -/
def set (t : Token) : TokenNet := { x with st := Function.update x.st r t }

/-- The token fields in `CIRCLE_init_local_state`. -/
def init : TokenNet := x.set r { tokenIsLocal := r = 0 }

/-- The colour `CIRCLE_send_work` leaves on a sender. -/
def blacken (dest : Rank) : TokenNet :=
  if dest < r ∨ dest = tokenSrc size r then x.set r { x.st r with tokenProc := .black } else x

/-- `CIRCLE_token_issend`. -/
def tokenIssend : TokenNet :=
  if abortFlag then x
  else
    { st := Function.update x.st r { x.st r with tokenIsLocal := false, tokenSendReq := true }
      net := x.net.push r (tokenDest size r) (x.st r).tokenBuf }

/-- The state of a rank that has received `token`, before the test for termination. -/
def arrived (t : Token) (token : Colour) : Token where
  tokenIsLocal := true
  tokenProc := if t.tokenProc = .black ∧ token = .black then .white else t.tokenProc
  tokenBuf := token
  tokenSendReq := false

/-- The test for termination in `CIRCLE_token_recv`. -/
def terminates (token : Colour) : Bool := (r = 0 ∧ token = .white) ∨ token = .terminate

/-- The end of `CIRCLE_token_recv`: the terminate token goes on, except from the last rank. -/
def forwardTerminate : TokenNet :=
  let y := x.set r { x.st r with tokenBuf := .terminate }
  let y := if r < size - 1 then y.tokenIssend size abortFlag r else y
  y.set r { y.st r with tokenProc := .terminate }

/-- `CIRCLE_token_recv` for the message `token`. -/
def tokenRecv (token : Colour) : TokenNet :=
  let y : TokenNet :=
    { st := Function.update x.st r (arrived (x.st r) token)
      net := x.net.pop (tokenSrc size r) r }
  if terminates r token then y.forwardTerminate size abortFlag r else y

/-- The wait of `CIRCLE_token_recv` for the pending send returns: after the token
from `token_src` is received, nothing is in flight to `token_dest`. -/
def RecvReady : Prop :=
  x.net (tokenSrc size r) r ≠ [] ∧
    ((x.st r).tokenSendReq = true → x.net.pop (tokenSrc size r) r r (tokenDest size r) = [])

instance : Decidable (x.RecvReady size r) := inferInstanceAs (Decidable (_ ∧ (_ → _)))

/-- `CIRCLE_check_for_term` with the token local: colour it, send it, turn white. -/
def passToken : TokenNet :=
  let t := x.st r
  let buf := if r = 0 then .white else if t.tokenProc = .black then .black else t.tokenBuf
  let y := (x.set r { t with tokenBuf := buf }).tokenIssend size abortFlag r
  y.set r { y.st r with tokenProc := .white }

/-- `CIRCLE_check_for_term`.  `token` is the message found by `CIRCLE_token_check`. -/
def checkForTerm (token : Option Colour) : TokenNet :=
  if (x.st r).tokenProc = .terminate then x
  else if (x.st r).tokenIsLocal then x.passToken size abortFlag r
  else
    match token with
    | none => x
    | some c => x.tokenRecv size abortFlag r c

/-- The test of `token_send_req` in the cleanup loop finds it complete. -/
def testSend : TokenNet := x.set r { x.st r with tokenSendReq := false }

end TokenNet

end Libcircle
