import Jos.Release
import Jos.Layout
import Jos.Upcall
import Jos.MemCheck
import Jos.TrapEntry
import Jos.Failure
import Jos.Send
import Jos.Fault
import Jos.Locking
import Jos.DoubleFree
import Jos.EnvIds
import Jos.Bootmain
import Jos.Printf
import Jos.FreePages
import Jos.Mmio
import Jos.MapCalls
import Jos.RoundRobin
import Jos.LoadIcode
import Jos.ForkChild
import Jos.UserView
import Jos.TwoCpus
import Jos.Isolation
import Jos.Tlb
import Jos.Memmove
import Jos.Console
import Jos.Stab
import Jos.Screen
import Jos.Readline
import Jos.Monitor
import Jos.Zombie
import Jos.Mailbox
import Jos.MpConfig
import Jos.Strtol
import Jos.FormatString
import Jos.FormatSafe
import Jos.Snprintf
import Jos.Cprintf
import Jos.CowRefine
import Jos.Primes
import Jos.Progress
import Jos.Fairness
import Jos.Integrity
import Jos.Keyboard
