import Pals.Api.Answered
import Pals.Api.Launch
import Pals.Api.Truth
import Pals.Content.Closing
import Pals.Content.Gate
import Pals.Content.Postponement
import Pals.Judge.Ending
import Pals.Judge.Execution
import Pals.Judge.Faults
import Pals.Judge.Pairing
import Pals.Judge.Removal
import Pals.Judge.Tolerance
import Pals.Publisher.Served
import Pals.Queue.Courses
import Pals.Queue.Diagram
import Pals.Queue.OldestFirst
import Pals.Queue.EndStates
import Pals.Queue.Names
import Pals.Queue.Serial
import Pals.Queue.Stranded
import Pals.Queue.Timestamps
import Pals.Queue.Waiting
