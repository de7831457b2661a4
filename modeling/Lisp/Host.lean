import Lisp.Machine

namespace Lisp

structure Host where
  sessions : List Session
  world : World

namespace Host

def join (h : Host) : Host :=
  let m := Machine.join h.sessions.length h.world
  ⟨h.sessions ++ [m.session], m.world⟩

def start (count : Nat) (sink : Sink) : Host :=
  count.repeat join ⟨[], .initial sink⟩

variable {α : Type}

def act (k : Nat) (x : Run Error Machine α) (h : Host) : Option (Outcome Error Host α) :=
  h.sessions[k]?.map (fun session =>
    x.zoom (fun h => ⟨session, h.world⟩)
      (fun m h => ⟨h.sessions.set k m.session, m.world⟩) h)

end Host

end Lisp
