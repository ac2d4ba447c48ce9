import EtradePipeline.Gateway.Backend

/-! The receive loop of `handle_client`: what a `recv` brings is appended to a buffer, and then the
lines that the buffer holds are taken out of it and answered. -/

namespace EtradePipeline

/-- What a `recv` leaves in a buffer of 8192 bytes when it returns a positive number. -/
structure Chunk where
  data : Bytes
  nonempty : data ≠ []
  fits : data.length ≤ 8192

inductive Recv where
  | data (chunk : Chunk)
  | timeout

/-- What a sequence of `recv`s brings. -/
def stream : List Recv → Bytes
  | [] => []
  | .data chunk :: rs => chunk.data ++ stream rs
  | .timeout :: rs => stream rs

/-- A line that was answered, with the metrics before and after. -/
structure Answered where
  line : Bytes
  before : Metrics
  responses : List Response
  after : Metrics
  deriving DecidableEq

/-- The state of `handle_client`, with the record of what it answered. -/
structure Client (maxSize : Int64) (maxOpen : UInt64) where
  readbuf : Bytes
  answered : List Answered
  backend : Backend maxSize maxOpen

namespace Client

variable {maxSize : Int64} {maxOpen : UInt64}

def start (backend : Backend maxSize maxOpen) : Client maxSize maxOpen := ⟨[], [], backend⟩

/-- The responses sent so far. -/
def sent (c : Client maxSize maxOpen) : List Response := c.answered.flatMap Answered.responses

/-- `readbuf.append`. -/
def append (c : Client maxSize maxOpen) (chunk : Chunk) : Client maxSize maxOpen :=
  { c with readbuf := c.readbuf ++ chunk.data }

/-- The body of the inner loop behind `trim`.  An empty line is skipped. -/
def answerLine (c : Client maxSize maxOpen) (line : Bytes) : Client maxSize maxOpen :=
  if line = [] then c
  else
    let (responses, backend) := c.backend.answer line
    { c with
      answered := c.answered ++ [⟨line, c.backend.metrics, responses, backend.metrics⟩]
      backend }

/-- The line that the buffer starts with and what is behind it, or `none` when no line is
complete. -/
def nextLine (readbuf : Bytes) : Option (Bytes × Bytes) :=
  (readbuf.findIdx? (· = byte '\n')).map fun pos =>
    (trim (readbuf.take (pos + 1)), readbuf.drop (pos + 1))

/-- A round of the inner loop. -/
def takeLine (c : Client maxSize maxOpen) : Option (Client maxSize maxOpen) :=
  (nextLine c.readbuf).map fun (line, readbuf) => { c with readbuf }.answerLine line

/-- The inner loop, for at most the given number of rounds. -/
def takeLines : Nat → Client maxSize maxOpen → Client maxSize maxOpen
  | 0, c => c
  | rounds + 1, c =>
    match c.takeLine with
    | none => c
    | some c => takeLines rounds c

/-- A pass of the receive loop.  Each round of the inner loop removes a byte at least. -/
def receive (c : Client maxSize maxOpen) : Recv → Client maxSize maxOpen
  | .data chunk => takeLines (c.append chunk).readbuf.length (c.append chunk)
  | .timeout => c

/-- The receive loop until the client closes the connection. -/
def receiveAll (c : Client maxSize maxOpen) (rs : List Recv) : Client maxSize maxOpen :=
  rs.foldl receive c

end Client

/-! ### Steps -/

/-- A step of the handler of a client, which answers a line as a whole here, or of others. -/
inductive ClientStep (maxSize : Int64) (maxOpen : UInt64) where
  | recv (chunk : Chunk)
  | line
  | others (now : Backend maxSize maxOpen)

namespace Client

variable {maxSize : Int64} {maxOpen : UInt64}

/-- The step from `c`: a `recv` when the buffer holds no complete line, the answer to the line that
it starts with, or whatever the other clients and the feed make of what they share. -/
def step (c : Client maxSize maxOpen) : ClientStep maxSize maxOpen → Option (Client maxSize maxOpen)
  | .recv chunk =>
    if c.backend.Running ∧ nextLine c.readbuf = none then some (c.append chunk) else none
  | .line => if c.backend.Running then c.takeLine else none
  | .others now => if c.backend.Leads now then some { c with backend := now } else none

end Client

end EtradePipeline
